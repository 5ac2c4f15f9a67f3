import Mathlib.Data.List.Dedup
import Mathlib.Data.List.Perm.Subperm
import Mathlib.Data.List.Sort
import Mathlib.Order.Compare

/-!
# Sorted lists

Association lists sorted by their keys.  Where the keys are different, two lists have the
same entries exactly if they are equal after sorting.  A list that is sorted and has no
element twice is known by its elements.

## Main definitions

* `sortKeyed`: a stable sort by the keys.
* `sortDedup`: the elements in order, each once.

## Main results

* `sortKeyed_map`: sorting does not depend on the values.
* `sortKeyed_eq_iff`: lists with different keys are equal after sorting exactly if the one
  is as long as the other and has its entries there.
* `sortDedup_congr`: lists with the same elements are equal after it.
-/

namespace Foundation

variable {K L B C : Type*}

/-! ## Orders through a code -/

theorem transCmp_comap (f : K → L) (cmp : L → L → Ordering) [Std.TransCmp cmp] :
    Std.TransCmp fun a b => cmp (f a) (f b) where
  eq_swap := Std.OrientedCmp.eq_swap
  isLE_trans := Std.TransCmp.isLE_trans

theorem lawfulEqCmp_comap {f : K → L} (hf : Function.Injective f) (cmp : L → L → Ordering)
    [Std.LawfulEqCmp cmp] : Std.LawfulEqCmp fun a b => cmp (f a) (f b) where
  compare_self := Std.ReflCmp.compare_self
  eq_of_compare h := hf (Std.LawfulEqCmp.eq_of_compare h)

/-! ## Sorting by the keys -/

/-- Pairs in the order of their first components; the sort is stable. -/
def sortKeyed (cmp : K → K → Ordering) (entries : List (K × B)) : List (K × B) :=
  entries.insertionSort fun x y => (cmp x.1 y.1).isLE = true

variable {cmp : K → K → Ordering}

theorem sortKeyed_map (f : B → C) (entries : List (K × B)) :
    sortKeyed cmp (entries.map (Prod.map id f)) = (sortKeyed cmp entries).map (Prod.map id f) :=
  (List.map_insertionSort (fun x y : K × B => (cmp x.1 y.1).isLE = true)
    (fun x y : K × C => (cmp x.1 y.1).isLE = true) (Prod.map id f) entries
    fun _ _ _ _ => Iff.rfl).symm

theorem sortKeyed_perm (entries : List (K × B)) : (sortKeyed cmp entries).Perm entries :=
  List.perm_insertionSort _ _

theorem mem_sortKeyed {entries : List (K × B)} {e : K × B} :
    e ∈ sortKeyed cmp entries ↔ e ∈ entries :=
  (sortKeyed_perm entries).mem_iff

theorem pairwise_sortKeyed [Std.TransCmp cmp] (entries : List (K × B)) :
    (sortKeyed cmp entries).Pairwise fun x y => (cmp x.1 y.1).isLE = true := by
  have htotal : Std.Total fun x y : K × B => (cmp x.1 y.1).isLE = true := by
    refine ⟨fun x y => ?_⟩
    rw [@Std.OrientedCmp.eq_swap _ cmp _ x.1 y.1]
    cases cmp y.1 x.1
    all_goals simp
  have htrans : IsTrans (K × B) fun x y => (cmp x.1 y.1).isLE = true :=
    ⟨fun _ _ _ hxy hyz => Std.TransCmp.isLE_trans hxy hyz⟩
  exact List.pairwise_insertionSort _ entries

/-- Entries of one key are one entry. -/
theorem eq_of_mem_of_fst_eq {entries : List (K × B)} (hnodup : (entries.map Prod.fst).Nodup)
    {x y : K × B} (hx : x ∈ entries) (hy : y ∈ entries) (h : x.1 = y.1) : x = y :=
  List.inj_on_of_nodup_map hnodup hx hy h

/-- Sorting is a normal form of lists with different keys. -/
theorem sortKeyed_eq_iff_perm [Std.TransCmp cmp] [Std.LawfulEqCmp cmp] {as bs : List (K × B)}
    (has : (as.map Prod.fst).Nodup) : sortKeyed cmp as = sortKeyed cmp bs ↔ as.Perm bs := by
  constructor
  · intro h
    exact (sortKeyed_perm as).symm.trans (h ▸ sortKeyed_perm bs)
  · intro h
    have hsorted : (sortKeyed cmp as).Perm (sortKeyed cmp bs) :=
      ((sortKeyed_perm as).trans h).trans (sortKeyed_perm bs).symm
    refine List.Perm.eq_of_pairwise ?_ (pairwise_sortKeyed as) (pairwise_sortKeyed bs) hsorted
    intro x y hx hy hxy hyx
    have hcmp : cmp x.1 y.1 = .eq := Std.OrientedCmp.isLE_antisymm hxy hyx
    have hkey : x.1 = y.1 := Std.LawfulEqCmp.eq_of_compare hcmp
    have hy' : y ∈ as := h.symm.subset (mem_sortKeyed.mp hy)
    exact eq_of_mem_of_fst_eq has (mem_sortKeyed.mp hx) hy' hkey

theorem sortKeyed_eq_iff [Std.TransCmp cmp] [Std.LawfulEqCmp cmp] {as bs : List (K × B)}
    (has : (as.map Prod.fst).Nodup) :
    sortKeyed cmp as = sortKeyed cmp bs ↔ as.length = bs.length ∧ ∀ e ∈ as, e ∈ bs := by
  rw [sortKeyed_eq_iff_perm has]
  constructor
  · intro h
    exact ⟨h.length_eq, fun e he => h.subset he⟩
  · rintro ⟨hlength, hsubset⟩
    have hsub := List.subperm_of_subset (List.Nodup.of_map Prod.fst has) hsubset
    exact hsub.perm_of_length_le hlength.ge

/-! ## Lookup -/

/-- Where the keys are different, a lookup finds the entry of its key. -/
theorem lookup_eq_some_iff_mem [BEq K] [LawfulBEq K] {entries : List (K × B)}
    (hnodup : (entries.map Prod.fst).Nodup) {k : K} {v : B} :
    entries.lookup k = some v ↔ (k, v) ∈ entries := by
  induction entries with
  | nil => simp
  | cons e es ih =>
    rw [List.map_cons, List.nodup_cons] at hnodup
    rw [List.lookup_cons, List.mem_cons]
    by_cases hk : k = e.1
    · rw [beq_iff_eq.mpr hk, Option.some.injEq]
      constructor
      · intro hv
        exact Or.inl (Prod.ext hk hv.symm)
      · rintro (he | hmem)
        · rw [← he]
        · exact absurd (hk ▸ List.mem_map_of_mem (f := Prod.fst) hmem) hnodup.1
    · rw [beq_eq_false_iff_ne.mpr hk, ih hnodup.2, or_iff_right]
      intro he
      exact hk (congrArg Prod.fst he)

/-! ## Sorting and dropping repetitions -/

section

variable {A : Type*} [LinearOrder A]

/-- The elements of a list in order, each once. -/
def sortDedup (as : List A) : List A := (as.insertionSort (· ≤ ·)).dedup

@[simp] theorem mem_sortDedup {as : List A} {a : A} : a ∈ sortDedup as ↔ a ∈ as := by
  rw [sortDedup, List.mem_dedup, List.mem_insertionSort]

theorem pairwise_sortDedup (as : List A) : (sortDedup as).Pairwise (· < ·) := by
  have hle : (sortDedup as).Pairwise (· ≤ ·) :=
    (List.pairwise_insertionSort (· ≤ ·) as).sublist (List.dedup_sublist _)
  have hne : (sortDedup as).Pairwise (· ≠ ·) := List.nodup_dedup _
  exact (hle.and hne).imp fun h => lt_of_le_of_ne h.1 h.2

/-- Strictly sorted lists with the same elements are equal. -/
theorem eq_of_pairwise_lt {as bs : List A} (has : as.Pairwise (· < ·)) (hbs : bs.Pairwise (· < ·))
    (h : ∀ a, a ∈ as ↔ a ∈ bs) : as = bs := by
  have hperm : as.Perm bs :=
    (List.perm_ext_iff_of_nodup (has.imp ne_of_lt) (hbs.imp ne_of_lt)).mpr h
  exact hperm.eq_of_pairwise (fun _ _ _ _ hab hba => absurd hab hba.asymm) has hbs

theorem sortDedup_congr {as bs : List A} (h : ∀ a, a ∈ as ↔ a ∈ bs) :
    sortDedup as = sortDedup bs := by
  refine eq_of_pairwise_lt (pairwise_sortDedup as) (pairwise_sortDedup bs) fun a => ?_
  rw [mem_sortDedup, mem_sortDedup, h a]

end

end Foundation
