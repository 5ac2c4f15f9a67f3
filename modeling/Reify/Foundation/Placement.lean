import Mathlib.Data.List.Basic
import Mathlib.Data.List.Induction
import Mathlib.Data.List.Nodup
import Mathlib.Data.List.Perm.Basic

/-!
# Placing some keys first

A list of keys is reordered by a list of some of them: the first slots of these come first, in the
order of the second list, and the other slots follow in the order of the first.

## Main definitions

* `placed`, `placement`: the slots of the sorted keys, and all the slots.

## Main results

* `placement_perm`: no slot is lost, and none comes twice.
* `filterMap_getElem?_placed`: the slots that come first are those of the sorted keys.
-/

namespace Foundation

variable {N : Type*} [DecidableEq N]

/-- The slots of the sorted keys. -/
def placed (keys sorted : List N) : List ℕ :=
  sorted.filterMap fun n => keys.findIdx? fun m => decide (m = n)

/-- The slots of the sorted keys, and then the others. -/
def placement (keys sorted : List N) : List ℕ :=
  placed keys sorted ++
    (List.range keys.length).filter fun w => decide (w ∉ placed keys sorted)

variable {keys sorted : List N}

theorem findIdx?_eq_iff (hkeys : keys.Nodup) {n : N} {w : ℕ} :
    (keys.findIdx? fun m => decide (m = n)) = some w ↔ keys[w]? = some n := by
  rw [List.findIdx?_eq_some_iff_getElem, List.getElem?_eq_some_iff]
  constructor
  · rintro ⟨hlt, hn, -⟩
    exact ⟨hlt, of_decide_eq_true hn⟩
  · rintro ⟨hlt, hn⟩
    refine ⟨hlt, decide_eq_true hn, ?_⟩
    intro j hj heq
    have hj' := of_decide_eq_true heq
    have hinj := (List.Nodup.getElem_inj_iff hkeys).mp (hj'.trans hn.symm)
    omega

/-- A slot that is placed is the slot of its key. -/
theorem getElem?_of_findIdx? {n : N} {w : ℕ}
    (h : (keys.findIdx? fun m => decide (m = n)) = some w) : keys[w]? = some n := by
  obtain ⟨hlt, hn, -⟩ := List.findIdx?_eq_some_iff_getElem.mp h
  exact List.getElem?_eq_some_iff.mpr ⟨hlt, of_decide_eq_true hn⟩

theorem placed_nodup (keys : List N) (hsorted : sorted.Nodup) : (placed keys sorted).Nodup := by
  refine List.Nodup.filterMap ?_ hsorted
  intro n m w hn hm
  exact Option.some.inj ((getElem?_of_findIdx? hn).symm.trans (getElem?_of_findIdx? hm))

/-- **No slot is lost, and none comes twice.** -/
theorem placement_perm (keys : List N) (hsorted : sorted.Nodup) :
    (placement keys sorted).Perm (List.range keys.length) := by
  have hnodup : (placement keys sorted).Nodup := by
    apply List.Nodup.append (placed_nodup keys hsorted) (List.nodup_range.filter _)
    intro w hw hrest
    exact of_decide_eq_true (List.mem_filter.mp hrest).2 hw
  apply (List.perm_ext_iff_of_nodup hnodup List.nodup_range).mpr
  intro w
  unfold placement
  rw [List.mem_append, List.mem_filter, decide_eq_true_eq]
  constructor
  · rintro (hw | ⟨hw, -⟩)
    · obtain ⟨n, -, hn⟩ := List.mem_filterMap.mp hw
      exact List.mem_range.mpr (List.getElem?_eq_some_iff.mp (getElem?_of_findIdx? hn)).1
    · exact hw
  · intro hw
    by_cases hplaced : w ∈ placed keys sorted
    · exact .inl hplaced
    · exact .inr ⟨hw, hplaced⟩

/-- **The slots that come first are those of the sorted keys**, in their order. -/
theorem filterMap_getElem?_placed (hkeys : keys.Nodup) (hsub : ∀ n ∈ sorted, n ∈ keys) :
    (placed keys sorted).filterMap (keys[·]?) = sorted := by
  induction sorted with
  | nil => rfl
  | cons n sorted ih =>
    obtain ⟨w, hw⟩ := List.mem_iff_getElem?.mp (hsub n List.mem_cons_self)
    have hplaced : placed keys (n :: sorted) = w :: placed keys sorted := by
      unfold placed
      rw [List.filterMap_cons, (findIdx?_eq_iff hkeys).mpr hw]
    rw [hplaced, List.filterMap_cons, hw]
    simp only [ih fun m hm => hsub m (List.mem_cons_of_mem n hm)]

omit [DecidableEq N] in
/-- The slots in order give back the list. -/
theorem filterMap_getElem?_range (l : List N) :
    (List.range l.length).filterMap (l[·]?) = l := by
  induction l using List.reverseRecOn with
  | nil => rfl
  | append_singleton l a ih =>
    have hprefix : (List.range l.length).filterMap ((l ++ [a])[·]?) =
        (List.range l.length).filterMap (l[·]?) := by
      apply List.filterMap_congr
      intro i hi
      exact List.getElem?_append_left (List.mem_range.mp hi)
    rw [List.length_append, List.length_singleton, List.range_succ, List.filterMap_append, hprefix,
      ih, List.filterMap_cons_some List.getElem?_concat_length, List.filterMap_nil]

end Foundation
