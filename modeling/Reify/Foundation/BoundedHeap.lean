import Mathlib.Data.List.Perm.Basic
import Reify.Foundation.HashMap

/-!
# The least elements of a stream

A max-heap of bounded size: every element is pushed, and when the heap is over its bound a
greatest element is popped.  Whatever the order of the stream, the heap holds its least elements.
A heap is modelled by the elements in it, in no particular order; which of several greatest
elements is popped is not specified.

## Main definitions

* `heapPop`, `pushBounded`: the heap.
* `sortBy`: a list in ascending order.
* `Retained`: the heap and what it dropped.

## Main results

* `Retained.push`: what one push keeps.
* `sortBy_foldl_pushBounded`: the heap in order is the beginning of the sorted stream.
-/

namespace Foundation

variable {A : Type*} {cmp : A → A → Ordering}

/-! ## The heap -/

/-- Drops a greatest element. -/
def heapPop (cmp : A → A → Ordering) (heap : List A) : List A :=
  match minBy (fun a b => cmp b a) heap with
  | none => heap
  | some greatest => heap.eraseP fun a => decide (cmp a greatest = .eq)

/-- Pushes an element, and pops one when the heap is over its bound. -/
def pushBounded (cmp : A → A → Ordering) (cap : ℕ) (heap : List A) (a : A) : List A :=
  if cap < (a :: heap).length then heapPop cmp (a :: heap) else a :: heap

/-- The elements in ascending order. -/
def sortBy (cmp : A → A → Ordering) (as : List A) : List A :=
  as.mergeSort fun a b => (cmp a b).isLE

/-- The heap holds elements of the stream, and is full if it dropped any; what it dropped is
at least as great. -/
structure Retained (cmp : A → A → Ordering) (cap : ℕ) (seen heap dropped : List A) : Prop where
  perm : (heap ++ dropped).Perm seen
  length_le : heap.length ≤ cap
  full : dropped ≠ [] → heap.length = cap
  least : ∀ a ∈ heap, ∀ d ∈ dropped, (cmp a d).isLE = true

variable [Std.TransCmp cmp]

/-- A pop drops an element that no other exceeds. -/
theorem exists_heapPop {heap : List A} (hne : heap ≠ []) :
    ∃ greatest, (greatest :: heapPop cmp heap).Perm heap ∧
      ∀ a ∈ heap, (cmp a greatest).isLE = true := by
  rw [heapPop]
  split
  · next hnone => exact absurd (minBy_eq_none_iff.mp hnone) hne
  · next greatest hgreatest =>
    have hmem : greatest ∈ heap := minBy_mem hgreatest
    have hle (a : A) (ha : a ∈ heap) : (cmp a greatest).isLE = true :=
      Ordering.ne_gt_iff_isLE.mp (minBy_le hgreatest a ha)
    -- the element that is dropped is equal to the greatest
    obtain ⟨dropped, before, after, -, hdropped, hsplit, heq⟩ := List.exists_of_eraseP hmem
      (p := fun a => decide (cmp a greatest = .eq)) (decide_eq_true Std.ReflCmp.compare_self)
    refine ⟨dropped, ?_, fun a ha => ?_⟩
    · rw [heq, hsplit]
      exact List.perm_middle.symm
    · have hback : (cmp greatest dropped).isLE = true := by
        rw [@Std.OrientedCmp.eq_swap _ cmp _ greatest dropped, of_decide_eq_true hdropped]
        rfl
      exact Std.TransCmp.isLE_trans (hle a ha) hback

theorem Retained.push {cap : ℕ} {seen heap dropped : List A}
    (h : Retained cmp cap seen heap dropped) (a : A) :
    ∃ dropped', Retained cmp cap (seen ++ [a]) (pushBounded cmp cap heap a) dropped' := by
  have hperm : ((a :: heap) ++ dropped).Perm (seen ++ [a]) :=
    (h.perm.cons a).trans (List.perm_append_singleton a seen).symm
  have hlen := h.length_le
  rw [pushBounded]
  split
  · next hover =>
    obtain ⟨greatest, hpop, hgreatest⟩ := @exists_heapPop _ cmp _ _ (List.cons_ne_nil a heap)
    have hcount := hpop.length_eq
    rw [List.length_cons, List.length_cons] at hcount
    rw [List.length_cons] at hover
    refine ⟨greatest :: dropped, ?_, by omega, fun _ => by omega, ?_⟩
    · exact List.perm_middle.trans ((hpop.append_right dropped).trans hperm)
    · intro b hb d hd
      have hb' : b ∈ a :: heap := hpop.subset (List.mem_cons_of_mem greatest hb)
      rcases List.mem_cons.mp hd with rfl | hd
      · exact hgreatest b hb'
      · rcases List.mem_cons.mp hb' with rfl | hb'
        · rcases List.mem_cons.mp (hpop.subset List.mem_cons_self) with rfl | hmem
          · -- the new element is popped, so what stays is the heap as it was
            exact h.least _ (hpop.cons_inv.subset hb) d hd
          · exact Std.TransCmp.isLE_trans (hgreatest b List.mem_cons_self) (h.least _ hmem d hd)
        · exact h.least b hb' d hd
  · next hroom =>
    rw [List.length_cons] at hroom
    refine ⟨dropped, hperm, by rw [List.length_cons]; omega, fun hne => ?_, ?_⟩
    · have hfull := h.full hne
      omega
    · intro b hb d hd
      have hfull := h.full (List.ne_nil_of_mem hd)
      omega

/-- **The heap retains the least elements of a stream.** -/
theorem exists_retained (cap : ℕ) (stream : List A) :
    ∃ dropped, Retained cmp cap stream (stream.foldl (pushBounded cmp cap) []) dropped := by
  induction stream using List.reverseRecOn with
  | nil => exact ⟨[], .nil, Nat.zero_le cap, by simp, by simp⟩
  | append_singleton stream a ih =>
    obtain ⟨dropped, h⟩ := ih
    rw [List.foldl_append]
    exact h.push a

/-! ## In order -/

omit [Std.TransCmp cmp] in
theorem sortBy_perm (as : List A) : (sortBy cmp as).Perm as := List.mergeSort_perm as _

theorem pairwise_sortBy (as : List A) :
    (sortBy cmp as).Pairwise fun a b => (cmp a b).isLE = true := by
  apply List.pairwise_mergeSort
  · exact fun _ _ _ => Std.TransCmp.isLE_trans
  · intro a b
    rw [@Std.OrientedCmp.eq_swap _ cmp _ a b]
    cases cmp b a <;> rfl

/-- Elements that are different do not compare as equal. -/
def Distinct (cmp : A → A → Ordering) (as : List A) : Prop :=
  as.Pairwise fun a b => cmp a b ≠ .eq

theorem Distinct.eq_of_cmp_eq {as : List A} (h : Distinct cmp as) {a b : A} (ha : a ∈ as)
    (hb : b ∈ as) (heq : cmp a b = .eq) : a = b := by
  by_contra hne
  have hsymm : Std.Symm fun a b : A => cmp a b ≠ .eq := by
    refine ⟨fun x y hxy hyx => hxy ?_⟩
    rw [@Std.OrientedCmp.eq_swap _ cmp _ x y, hyx]
    rfl
  exact h.forall ha hb hne heq

/-- **The heap in order is the beginning of the sorted stream.** -/
theorem sortBy_foldl_pushBounded (cap : ℕ) {stream : List A} (h : Distinct cmp stream) :
    sortBy cmp (stream.foldl (pushBounded cmp cap) []) = (sortBy cmp stream).take cap := by
  obtain ⟨dropped, hretained⟩ := @exists_retained _ cmp _ cap stream
  generalize stream.foldl (pushBounded cmp cap) [] = heap at hretained ⊢
  have hmem (a : A) : a ∈ stream ↔ a ∈ heap ∨ a ∈ dropped := by
    rw [← hretained.perm.mem_iff, List.mem_append]
  have hsplit : sortBy cmp stream = sortBy cmp heap ++ sortBy cmp dropped := by
    refine List.Perm.eq_of_pairwise ?_ (pairwise_sortBy stream) ?_ ?_
    · intro a b ha hb hab hba
      have hb' : b ∈ stream := by
        rcases List.mem_append.mp hb with hb | hb
        · exact (hmem b).mpr (.inl ((sortBy_perm heap).subset hb))
        · exact (hmem b).mpr (.inr ((sortBy_perm dropped).subset hb))
      exact h.eq_of_cmp_eq ((sortBy_perm stream).subset ha) hb'
        (Std.OrientedCmp.isLE_antisymm hab hba)
    · rw [List.pairwise_append]
      refine ⟨pairwise_sortBy heap, pairwise_sortBy dropped, fun a ha d hd => ?_⟩
      exact hretained.least a ((sortBy_perm heap).subset ha) d ((sortBy_perm dropped).subset hd)
    · exact (sortBy_perm stream).trans (hretained.perm.symm.trans
        ((sortBy_perm heap).append (sortBy_perm dropped)).symm)
  rw [hsplit]
  have hlen : (sortBy cmp heap).length = heap.length := (sortBy_perm heap).length_eq
  by_cases hdropped : dropped = []
  · subst hdropped
    have hnil : sortBy cmp ([] : List A) = [] := List.mergeSort_nil
    rw [hnil, List.append_nil, List.take_of_length_le]
    exact hlen ▸ hretained.length_le
  · rw [List.take_left' (hlen.trans (hretained.full hdropped))]

end Foundation
