import Mathlib.Data.Set.Finite.Basic
import Mathlib.Logic.Relation

/-!
# Acyclic relations

## Main definitions

* `Acyclic`: no element reaches itself.

## Main results

* `acyclic_of_rank`: a relation along which a rank falls is acyclic.
* `Acyclic.induction`: induction along an acyclic relation on a finite support.
-/

namespace Foundation

variable {A : Type*} {r : A → A → Prop}

/-- No element reaches itself. -/
def Acyclic (r : A → A → Prop) : Prop := ∀ a, ¬ Relation.TransGen r a a

theorem Acyclic.mono {r' : A → A → Prop} (h : Acyclic r) (hsub : ∀ a b, r' a b → r a b) :
    Acyclic r' :=
  fun a ha => h a (Relation.TransGen.mono hsub a a ha)

theorem acyclic_of_rank (rank : A → Nat) (h : ∀ a b, r a b → rank b < rank a) : Acyclic r := by
  have falls (a b : A) (hab : Relation.TransGen r a b) : rank b < rank a := by
    induction hab with
    | single hab => exact h a _ hab
    | tail _ hbc ih => exact Nat.lt_trans (h _ _ hbc) ih
  exact fun a ha => Nat.lt_irrefl _ (falls a a ha)

/-- **Induction along an acyclic relation**: what holds of an element once it
holds of those it is related to, holds on all of a finite support. -/
theorem Acyclic.induction (h : Acyclic r) {support : List A} {P : A → Prop}
    (step : ∀ a ∈ support, (∀ b ∈ support, r a b → P b) → P a) : ∀ a ∈ support, P a := by
  let below (b a : {a // a ∈ support}) : Prop := Relation.TransGen r a.1 b.1
  have htrans : IsTrans _ below := ⟨fun _ _ _ hab hbc => hbc.trans hab⟩
  have hirrefl : Std.Irrefl below := ⟨fun a ha => h a.1 ha⟩
  have hfinite : Finite {a // a ∈ support} := support.finite_toSet.to_subtype
  have hwf : WellFounded below := Finite.wellFounded_of_trans_of_irrefl below
  intro a ha
  have hall (a : {a // a ∈ support}) : P a.1 := by
    induction a using hwf.induction with
    | h a ih => exact step a.1 a.2 fun b hb hab => ih ⟨b, hb⟩ (.single hab)
  exact hall ⟨a, ha⟩

end Foundation
