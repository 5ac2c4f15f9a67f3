import Mathlib.Data.List.Basic
import Mathlib.Data.List.Nodup

/-!
# Products of lists in lexicographic order

The choices of one element from each list of a sequence, in the order in which a
depth-first search over the sequence meets them.

## Main definitions

* `lexProduct`: the choices.

## Main results

* `mem_lexProduct`: the choices are those of one element from each list.
* `nodup_lexProduct`: lists without duplicates have a product without duplicates.
-/

namespace Foundation

variable {α : Type*}

/-- The choices of one element from each list; the first choice varies slowest. -/
def lexProduct : List (List α) → List (List α)
  | [] => [[]]
  | as :: rest => as.flatMap fun a => (lexProduct rest).map (a :: ·)

theorem mem_lexProduct {ass : List (List α)} {choice : List α} :
    choice ∈ lexProduct ass ↔ List.Forall₂ (· ∈ ·) choice ass := by
  induction ass generalizing choice with
  | nil => simp [lexProduct]
  | cons as ass ih =>
    rw [lexProduct, List.mem_flatMap]
    constructor
    · rintro ⟨a, ha, hmem⟩
      obtain ⟨rest, hrest, rfl⟩ := List.mem_map.mp hmem
      exact .cons ha (ih.mp hrest)
    · intro h
      cases h with
      | cons ha hrest => exact ⟨_, ha, List.mem_map.mpr ⟨_, ih.mpr hrest, rfl⟩⟩

theorem length_of_mem_lexProduct {ass : List (List α)} {choice : List α}
    (h : choice ∈ lexProduct ass) : choice.length = ass.length :=
  (mem_lexProduct.mp h).length_eq

theorem nodup_lexProduct {ass : List (List α)} (h : ∀ as ∈ ass, as.Nodup) :
    (lexProduct ass).Nodup := by
  induction ass with
  | nil => exact List.nodup_singleton []
  | cons as ass ih =>
    rw [lexProduct, List.nodup_flatMap]
    refine ⟨?_, ?_⟩
    · intro a _
      refine (ih fun as' has' => h as' (List.mem_cons_of_mem as has')).map ?_
      exact List.cons_injective
    · refine (h as List.mem_cons_self).imp ?_
      intro a b hab choice hchoice hchoice'
      obtain ⟨_, _, rfl⟩ := List.mem_map.mp hchoice
      obtain ⟨_, _, heq⟩ := List.mem_map.mp hchoice'
      exact hab (List.cons.inj heq).1.symm

end Foundation
