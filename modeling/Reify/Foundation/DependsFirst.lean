import Mathlib.Data.List.Induction
import Mathlib.Data.List.Nodup
import Mathlib.Logic.Relation

/-!
# Lists with dependencies first

A list whose elements come after everything they depend on.  Such a list is closed
under the dependencies of its elements, and no element of it depends on itself.

## Main definitions

* `DependsFirst`: every element comes after what it depends on.

## Main results

* `DependsFirst.concat`: growing such a list at its end.
* `DependsFirst.mem_of_reflTransGen`: the list is closed.
* `DependsFirst.not_transGen`: it has no cycle.
-/

namespace Foundation

variable {A : Type*} {r r' : A → A → Prop} {order : List A} {a b : A}

/-- Every element comes after what it depends on. -/
def DependsFirst (r : A → A → Prop) (order : List A) : Prop :=
  ∀ before a after, order = before ++ a :: after → ∀ b, r a b → b ∈ before

namespace DependsFirst

theorem nil : DependsFirst r [] := by
  intro before a after h
  simp at h

/-- Only the dependencies of the elements matter. -/
theorem mono (h : DependsFirst r order) (hsub : ∀ a ∈ order, ∀ b, r' a b → r a b) :
    DependsFirst r' order := by
  intro before a after horder b hab
  refine h before a after horder b (hsub a ?_ b hab)
  rw [horder]
  exact List.mem_append_right _ List.mem_cons_self

/-- An element may be added once everything it depends on is there. -/
theorem concat (h : DependsFirst r order) (ha : ∀ b, r a b → b ∈ order) :
    DependsFirst r (order ++ [a]) := by
  intro before a' after horder b hab
  rcases List.eq_nil_or_concat after with rfl | ⟨after, last, rfl⟩
  · -- the new element
    obtain ⟨rfl, hlast⟩ := List.append_inj' horder rfl
    obtain rfl := List.singleton_injective hlast
    exact ha b hab
  · rw [List.concat_eq_append, ← List.cons_append, ← List.append_assoc] at horder
    exact h before a' after (List.append_inj' horder rfl).1 b hab

/-- Elements that depend on nothing may be added. -/
theorem append_of_isolated (h : DependsFirst r order) {rest : List A}
    (hrest : ∀ a ∈ rest, ∀ b, ¬ r a b) : DependsFirst r (order ++ rest) := by
  induction rest using List.reverseRecOn with
  | nil =>
    rw [List.append_nil]
    exact h
  | append_singleton rest a ih =>
    rw [← List.append_assoc]
    refine (ih fun a' ha' => hrest a' (List.mem_append_left _ ha')).concat fun b hab => ?_
    exact absurd hab (hrest a (List.mem_append_right _ List.mem_cons_self) b)

/-- A beginning of the list has its dependencies first too. -/
theorem of_prefix {rest : List A} (h : DependsFirst r (order ++ rest)) : DependsFirst r order := by
  intro before a after horder
  refine h before a (after ++ rest) ?_
  rw [horder]
  simp

theorem mem (h : DependsFirst r order) (ha : a ∈ order) (hab : r a b) : b ∈ order := by
  obtain ⟨before, after, rfl⟩ := List.append_of_mem ha
  exact List.mem_append_left _ (h before a after rfl b hab)

/-- **The list is closed** under what its elements depend on. -/
theorem mem_of_reflTransGen (h : DependsFirst r order) (ha : a ∈ order)
    (hab : Relation.ReflTransGen r a b) : b ∈ order := by
  induction hab with
  | refl => exact ha
  | tail _ hstep ih => exact h.mem ih hstep

/-- What an element depends on comes before it, at any distance. -/
theorem mem_of_transGen (h : DependsFirst r order) {before after : List A}
    (horder : order = before ++ a :: after) (hab : Relation.TransGen r a b) : b ∈ before := by
  induction hab with
  | single hstep => exact h before a after horder _ hstep
  | tail _ hstep ih =>
    have hbefore : DependsFirst r before := by
      rw [horder] at h
      exact h.of_prefix
    exact hbefore.mem ih hstep

/-- **No element depends on itself.** -/
theorem not_transGen (h : DependsFirst r order) (hnodup : order.Nodup) (ha : a ∈ order) :
    ¬ Relation.TransGen r a a := by
  intro hcycle
  obtain ⟨before, after, horder⟩ := List.append_of_mem ha
  have hmem := h.mem_of_transGen horder hcycle
  rw [horder] at hnodup
  exact (List.nodup_append.mp hnodup).2.2 a hmem a List.mem_cons_self rfl

end DependsFirst

end Foundation
