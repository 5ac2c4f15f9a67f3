import Reify.Core.Overload
import Reify.Ir.Expr

/-!
# Overload resolution

The compiler filters the candidates of a name tier by tier and classifies what is left;
the evaluator scans the table once and remembers the first candidate of each tier.  The
two select the same function.

## Main definitions

* `CompiledFunction`, `TypedExpr`.
* `resolveFunctionOverload`: the compiler's resolution.
* `findMatchingCompiledFunction`: the evaluator's.

## Main results

* `scanTiers_eq`: the scan finds the first candidate of the narrowest tier that has one.
* `findMatching_eq_head_survivors`: the two resolutions agree.
-/

namespace Reify

/-- A compiled function: what its resolution reads, and the rest. -/
structure CompiledFunction (R : Type) where
  name : String
  params : List (String × Ty)
  typeParams : List String
  rest : R

/-- A compiled argument with its type. -/
structure TypedExpr (V : Type) where
  expr : CompiledExpr V
  resultType : Ty

section

variable {R V : Type}

namespace CompiledFunction

/-- Whether the function is generic. -/
def isGeneric (f : CompiledFunction R) : Bool := !f.typeParams.isEmpty

/-- Whether each parameter's type and the argument's in its place satisfy a relation. -/
def allSlots (p : Ty → Ty → Bool) (f : CompiledFunction R) (argTypes : List Ty) : Bool :=
  (f.params.zip argTypes).all fun slot => p slot.1.2 slot.2

/-- The exact tier. -/
def exact (f : CompiledFunction R) (argTypes : List Ty) : Bool :=
  f.allSlots Ty.beq argTypes

/-- The wildcard tier. -/
def wildcard (f : CompiledFunction R) (argTypes : List Ty) : Bool :=
  f.allSlots (fun paramTy argTy => slotMatchesWildcardTier paramTy argTy f.isGeneric) argTypes

/-- The head tier. -/
def head (f : CompiledFunction R) (argTypes : List Ty) : Bool :=
  f.allSlots (fun paramTy argTy => slotMatchesHeadTier paramTy argTy f.isGeneric) argTypes

/-- An exact candidate passes the wildcard tier. -/
theorem wildcard_of_exact {f : CompiledFunction R} {argTypes : List Ty}
    (h : f.exact argTypes = true) : f.wildcard argTypes = true := by
  rw [exact, allSlots, List.all_eq_true] at h
  rw [wildcard, allSlots, List.all_eq_true]
  intro slot hslot
  rw [← Ty.beq_iff.mp (h slot hslot)]
  exact slotMatchesWildcardTier_self slot.1.2 f.isGeneric

end CompiledFunction

/-! ## At compile time -/

/-- The outcome of a resolution at compile time. -/
inductive OverloadResolution (R : Type) where
  | resolved (f : CompiledFunction R)
  | noUserFunctions
  | noMatch (named : List (CompiledFunction R))
  | ambiguous (fs : List (CompiledFunction R))

/-- The candidates left after the tie-breaks: the exact ones, else those of the head
tier, else all that match. -/
def survivors (argTypes : List Ty) (candidates : List (CompiledFunction R)) :
    List (CompiledFunction R) :=
  let found := candidates.filter fun f =>
    decide (f.params.length = argTypes.length) && f.wildcard argTypes
  let exactMatches := found.filter fun f => f.exact argTypes
  let headMatches := found.filter fun f => f.head argTypes
  if exactMatches.isEmpty then if headMatches.isEmpty then found else headMatches else exactMatches

/-- The functions of a name. -/
def functionsNamed (name : String) (functions : List (CompiledFunction R)) :
    List (CompiledFunction R) := functions.filter fun f => decide (f.name = name)

/-- Resolves a call against the functions of the program. -/
def resolveFunctionOverload (name : String) (argTypes : List Ty)
    (functions : List (CompiledFunction R)) : OverloadResolution R :=
  let candidates := functionsNamed name functions
  if candidates.isEmpty then .noUserFunctions
  else
    match survivors argTypes candidates with
    | [f] => .resolved f
    | [] => .noMatch candidates
    | fs => .ambiguous fs

/-! ## At run time -/

/-- The scan: the first exact candidate wins wherever it stands; the first of each other
tier is remembered. -/
def scanTiers (argTypes : List Ty) : List (CompiledFunction R) → Option (CompiledFunction R) →
    Option (CompiledFunction R) → Option (CompiledFunction R)
  | [], firstHead, firstWildcard => firstHead.or firstWildcard
  | f :: fs, firstHead, firstWildcard =>
    if f.exact argTypes then some f
    else if firstHead.isNone && f.wildcard argTypes then
      if f.head argTypes then scanTiers argTypes fs (some f) firstWildcard
      else if firstWildcard.isNone then scanTiers argTypes fs firstHead (some f)
      else scanTiers argTypes fs firstHead firstWildcard
    else scanTiers argTypes fs firstHead firstWildcard

/-- The function that a call runs. -/
def findMatchingCompiledFunction (fns : List (CompiledFunction R)) (name : String)
    (args : List (TypedExpr V)) : Option (CompiledFunction R) :=
  scanTiers (args.map TypedExpr.resultType)
    (fns.filter fun f => decide (f.name = name) && decide (f.params.length = args.length)) none none

/-! ## The scan and the tiers -/

/-- The first candidate of the narrowest tier that has one. -/
def firstOfTiers (argTypes : List Ty) (candidates : List (CompiledFunction R)) :
    Option (CompiledFunction R) :=
  (candidates.find? fun f => f.exact argTypes).or
    ((candidates.find? fun f => f.wildcard argTypes && f.head argTypes).or
      (candidates.find? fun f => f.wildcard argTypes))

theorem find?_exact_eq_none {argTypes : List Ty} {candidates : List (CompiledFunction R)}
    (h : ∀ f ∈ candidates, f.exact argTypes = false) :
    candidates.find? (fun f => f.exact argTypes) = none := by
  rw [List.find?_eq_none]
  intro f hf
  rw [h f hf]
  exact Bool.false_ne_true

/-- What the scan remembers of the candidates it has passed. -/
theorem scanTiers_eq {argTypes : List Ty} (passed candidates : List (CompiledFunction R))
    (hpassed : ∀ f ∈ passed, f.exact argTypes = false)
    {firstHead firstWildcard : Option (CompiledFunction R)}
    (hhead : firstHead = passed.find? fun f => f.wildcard argTypes && f.head argTypes)
    (hwildcard : firstHead = none → firstWildcard = passed.find? fun f => f.wildcard argTypes) :
    scanTiers argTypes candidates firstHead firstWildcard =
      firstOfTiers argTypes (passed ++ candidates) := by
  induction candidates generalizing passed firstHead firstWildcard with
  | nil =>
    rw [scanTiers, firstOfTiers, List.append_nil, find?_exact_eq_none hpassed, Option.none_or,
      ← hhead]
    cases firstHead with
    | none => rw [hwildcard rfl]
    | some f => rfl
  | cons f fs ih =>
    have hsplit : passed ++ f :: fs = (passed ++ [f]) ++ fs := by
      rw [List.append_assoc, List.singleton_append]
    rw [scanTiers]
    split
    · next hf =>
      have hexact : (passed ++ f :: fs).find? (fun f => f.exact argTypes) = some f := by
        rw [List.find?_append, find?_exact_eq_none hpassed, Option.none_or, List.find?_cons, hf]
      rw [firstOfTiers, hexact, Option.some_or]
    · next hf =>
      rw [hsplit]
      have hpassed' : ∀ g ∈ passed ++ [f], g.exact argTypes = false := by
        intro g hg
        rcases List.mem_append.mp hg with hg | hg
        · exact hpassed g hg
        · rw [List.mem_singleton.mp hg]
          exact Bool.eq_false_iff.mpr hf
      split
      · next hboth =>
        rw [Bool.and_eq_true, Option.isNone_iff_eq_none] at hboth
        obtain ⟨hnone, hmatch⟩ := hboth
        rw [hnone] at hhead
        split
        · next hheads =>
          refine ih (passed ++ [f]) hpassed' ?_ nofun
          rw [List.find?_append, ← hhead, Option.none_or, List.find?_singleton, hmatch, hheads]
          rfl
        · next hheads =>
          have hhead' : none =
              (passed ++ [f]).find? fun f => f.wildcard argTypes && f.head argTypes := by
            rw [List.find?_append, ← hhead, Option.none_or, List.find?_singleton, hmatch,
              Bool.eq_false_iff.mpr hheads]
            rfl
          split
          · next hfirst =>
            refine ih (passed ++ [f]) hpassed' (hnone ▸ hhead') ?_
            intro _
            rw [List.find?_append, ← hwildcard hnone, Option.isNone_iff_eq_none.mp hfirst,
              Option.none_or, List.find?_singleton, hmatch]
            rfl
          · next hfirst =>
            refine ih (passed ++ [f]) hpassed' (hnone ▸ hhead') ?_
            intro _
            rw [List.find?_append, ← hwildcard hnone]
            rcases firstWildcard with _ | g
            · exact absurd rfl hfirst
            · rfl
      · next hboth =>
        rw [Bool.and_eq_true, Option.isNone_iff_eq_none, not_and] at hboth
        refine ih (passed ++ [f]) hpassed' ?_ ?_
        · rw [List.find?_append, ← hhead]
          rcases firstHead with _ | g
          · rw [Option.none_or, List.find?_singleton, Bool.eq_false_iff.mpr (hboth rfl)]
            rfl
          · rfl
        · intro hnone
          rw [List.find?_append, ← hwildcard hnone, List.find?_singleton,
            Bool.eq_false_iff.mpr (hboth hnone)]
          exact (Option.or_none).symm

/-- The survivors of the candidates start with the first of the tiers. -/
theorem head?_survivors (argTypes : List Ty) (candidates : List (CompiledFunction R)) :
    (survivors argTypes candidates).head? = firstOfTiers argTypes
      (candidates.filter fun f => decide (f.params.length = argTypes.length)) := by
  have hfound : (candidates.filter fun f =>
      decide (f.params.length = argTypes.length) && f.wildcard argTypes) =
        (candidates.filter fun f => decide (f.params.length = argTypes.length)).filter
          fun f => f.wildcard argTypes := by
    rw [List.filter_filter]
    congr 1
    funext f
    exact Bool.and_comm _ _
  rw [survivors, hfound]
  generalize (candidates.filter fun f => decide (f.params.length = argTypes.length)) = eligible
  have hexact : (eligible.filter fun f => f.wildcard argTypes).filter (fun f => f.exact argTypes) =
      eligible.filter fun f => f.exact argTypes := by
    rw [List.filter_filter]
    congr 1
    funext f
    rw [Bool.and_eq_left_iff_imp]
    exact CompiledFunction.wildcard_of_exact
  have hhead : (eligible.filter fun f => f.wildcard argTypes).filter (fun f => f.head argTypes) =
      eligible.filter fun f => f.wildcard argTypes && f.head argTypes := by
    rw [List.filter_filter]
    congr 1
    funext f
    exact Bool.and_comm _ _
  rw [hexact, hhead, firstOfTiers, ← List.head?_filter, ← List.head?_filter, ← List.head?_filter]
  cases eligible.filter fun f => f.exact argTypes with
  | cons f fs => rfl
  | nil =>
    cases eligible.filter fun f => f.wildcard argTypes && f.head argTypes with
    | cons f fs => rfl
    | nil => rfl

/-- **Compile-time and run-time selection agree.**  The function that a call runs is the
first survivor; so it is the one a resolution has found, one of those it calls ambiguous,
and none exactly when the resolution finds none. -/
theorem findMatching_eq_head_survivors (functions : List (CompiledFunction R)) (name : String)
    (args : List (TypedExpr V)) :
    findMatchingCompiledFunction functions name args =
        (survivors (args.map TypedExpr.resultType) (functionsNamed name functions)).head? ∧
      match resolveFunctionOverload name (args.map TypedExpr.resultType) functions with
      | .resolved f => findMatchingCompiledFunction functions name args = some f
      | .noUserFunctions | .noMatch _ => findMatchingCompiledFunction functions name args = none
      | .ambiguous fs => findMatchingCompiledFunction functions name args = fs.head? := by
  have hfind : findMatchingCompiledFunction functions name args =
      (survivors (args.map TypedExpr.resultType) (functionsNamed name functions)).head? := by
    have hscan := @scanTiers_eq R (args.map TypedExpr.resultType) []
      (functions.filter fun f =>
        decide (f.name = name) && decide (f.params.length = args.length)) (by simp) none none rfl
      fun _ => rfl
    rw [findMatchingCompiledFunction, hscan, head?_survivors, functionsNamed, List.filter_filter,
      List.nil_append, List.length_map]
    simp only [Bool.and_comm]
  refine ⟨hfind, ?_⟩
  rw [hfind, resolveFunctionOverload]
  by_cases hnamed : (functionsNamed name functions).isEmpty = true
  · rw [if_pos hnamed, List.isEmpty_iff.mp hnamed]
    rfl
  · rw [if_neg hnamed]
    rcases survivors (args.map TypedExpr.resultType) (functionsNamed name functions) with
      _ | ⟨f, _ | ⟨g, fs⟩⟩
    · rfl
    · rfl
    · rfl

end

end Reify
