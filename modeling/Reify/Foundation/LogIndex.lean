import Mathlib.Data.List.Lemmas
import Reify.Foundation.HashMap
import Reify.Foundation.KeyedSort

/-!
# Logs with an index

A log is only appended to.  An index over it keeps, for each key, the positions of its entries.

## Main definitions

* `positions`: where the entries that satisfy a condition stand.
* `pushIndex`: enters a position.
* `Indexes`: an index lists the positions of each key.

## Main results

* `Indexes.push`: an index is kept as the log grows.
* `mapM_positions`, `map_getLast?_positions`: positions lead back to the entries.
* `Indexes.sortDedup_flatMap`: the positions of several keys, in order.
-/

namespace Foundation

variable {K E : Type*}

/-! ## Positions -/

/-- Where the entries that satisfy a condition stand. -/
def positions (p : E → Bool) (log : List E) : List Nat :=
  (log.zipIdx.filter fun e => p e.1).map Prod.snd

theorem map_fst_filter_zipIdx (p : E → Bool) (log : List E) :
    (log.zipIdx.filter fun e => p e.1).map Prod.fst = log.filter p := by
  rw [← Function.comp_def p Prod.fst, ← List.filter_map, List.zipIdx_map_fst]

theorem positions_concat (p : E → Bool) (log : List E) (e : E) :
    positions p (log ++ [e]) = positions p log ++ if p e then [log.length] else [] := by
  unfold positions
  rw [List.zipIdx_append, List.filter_append, List.map_append]
  cases h : p e <;> simp [h]

theorem pairwise_positions (p : E → Bool) (log : List E) : (positions p log).Pairwise (· < ·) := by
  induction log using List.reverseRecOn with
  | nil => exact List.Pairwise.nil
  | append_singleton log e ih =>
    rw [positions_concat]
    refine List.pairwise_append.mpr ⟨ih, ?_, ?_⟩
    · split
      · exact List.pairwise_singleton _ _
      · exact List.Pairwise.nil
    · intro i hi j hj
      obtain ⟨-, rfl⟩ : p e = true ∧ j = log.length := by
        split at hj
        · next h => exact ⟨h, List.mem_singleton.mp hj⟩
        · cases hj
      obtain ⟨x, hx, rfl⟩ := List.mem_map.mp hi
      exact List.snd_lt_of_mem_zipIdx (List.mem_filter.mp hx).1

theorem mem_positions_iff {p : E → Bool} {log : List E} {i : Nat} :
    i ∈ positions p log ↔ ∃ e, log[i]? = some e ∧ p e = true := by
  unfold positions
  constructor
  · intro h
    obtain ⟨x, hx, rfl⟩ := List.mem_map.mp h
    obtain ⟨hmem, hp⟩ := List.mem_filter.mp hx
    exact ⟨x.1, List.mem_zipIdx_iff_getElem?.mp hmem, hp⟩
  · rintro ⟨e, he, hp⟩
    exact List.mem_map.mpr
      ⟨(e, i), List.mem_filter.mpr ⟨List.mem_zipIdx_iff_getElem?.mpr he, hp⟩, rfl⟩

/-- Looking the positions up gives the entries. -/
theorem mapM_positions (p : E → Bool) (log : List E) :
    (positions p log).mapM (fun i => log[i]?) = some (log.filter p) := by
  have hmap (entries : List (E × Nat)) (h : ∀ x ∈ entries, log[x.2]? = some x.1) :
      (entries.map Prod.snd).mapM (fun i => log[i]?) = some (entries.map Prod.fst) := by
    induction entries with
    | nil => rfl
    | cons x entries ih =>
      rw [List.map_cons, List.mapM_cons, h x (by simp), ih fun y hy => h y (by simp [hy])]
      rfl
  rw [positions, hmap _ fun x hx => List.mem_zipIdx_iff_getElem?.mp (List.mem_filter.mp hx).1,
    map_fst_filter_zipIdx]

/-- Looking the last position up gives the last entry. -/
theorem map_getLast?_positions (p : E → Bool) (log : List E) :
    ((positions p log).getLast?.map fun i => log[i]?) = (log.filter p).getLast?.map some := by
  rw [positions, List.getLast?_map, Option.map_map, ← map_fst_filter_zipIdx p log,
    List.getLast?_map, Option.map_map]
  refine Option.map_congr fun x hx => ?_
  exact List.mem_zipIdx_iff_getElem?.mp (List.mem_filter.mp (List.mem_of_getLast? hx)).1

/-! ## Indices -/

variable [DecidableEq K]

/-- Enters a position. -/
def pushIndex (index : HashMap K (List Nat)) (k : K) (i : Nat) : HashMap K (List Nat) :=
  index.insert k ((index.get k).getD [] ++ [i])

/-- The index lists the positions of each key, and has no key without any. -/
def Indexes (index : HashMap K (List Nat)) (key : E → K) (log : List E) : Prop :=
  ∀ k, index.get k =
    if (log.any fun e => decide (key e = k)) = true then
      some (positions (fun e => decide (key e = k)) log)
    else none

variable {index : HashMap K (List Nat)} {key : E → K} {log : List E}

theorem indexes_empty (key : E → K) : Indexes (∅ : HashMap K (List Nat)) key [] := fun _ => rfl

theorem Indexes.getD (h : Indexes index key log) (k : K) :
    (index.get k).getD [] = positions (fun e => decide (key e = k)) log := by
  rw [h k]
  split
  · rfl
  · next hnone =>
    symm
    rw [Option.getD_none, List.eq_nil_iff_forall_not_mem]
    intro i hi
    obtain ⟨e, he, hp⟩ := mem_positions_iff.mp hi
    exact hnone (List.any_eq_true.mpr ⟨e, List.mem_of_getElem? he, hp⟩)

/-- An index is kept as the log grows. -/
theorem Indexes.push (h : Indexes index key log) (e : E) :
    Indexes (pushIndex index (key e) log.length) key (log ++ [e]) := by
  intro k
  unfold pushIndex
  rw [HashMap.get_insert, positions_concat, List.any_append, List.any_cons, List.any_nil,
    Bool.or_false]
  by_cases hk : k = key e
  · subst hk
    rw [if_pos rfl, h.getD, decide_eq_true rfl, Bool.or_true, if_pos rfl, if_pos rfl]
  · have hne : decide (key e = k) = false := decide_eq_false (Ne.symm hk)
    rw [if_neg hk, hne, Bool.or_false, if_neg Bool.false_ne_true, List.append_nil]
    exact h k

theorem Indexes.mem_keys_iff (h : Indexes index key log) {k : K} :
    k ∈ index.keys ↔ ∃ e ∈ log, key e = k := by
  rw [HashMap.mem_keys_iff, h k]
  split
  · next hany => simpa using hany
  · next hany => simpa using hany

/-- The positions of several keys, in order, are those of the entries with such a key. -/
theorem Indexes.sortDedup_flatMap (h : Indexes index key log) {keys : List K} {q : K → Bool}
    (hkeys : ∀ k, k ∈ keys ↔ k ∈ index.keys ∧ q k = true) :
    sortDedup (keys.flatMap fun k => (index.get k).getD []) =
      positions (fun e => q (key e)) log := by
  refine eq_of_pairwise_lt (pairwise_sortDedup _) (pairwise_positions _ _) fun i => ?_
  rw [mem_sortDedup, List.mem_flatMap, mem_positions_iff]
  constructor
  · rintro ⟨k, hk, hi⟩
    rw [h.getD, mem_positions_iff] at hi
    obtain ⟨e, he, hkey⟩ := hi
    obtain rfl := of_decide_eq_true hkey
    exact ⟨e, he, ((hkeys _).mp hk).2⟩
  · rintro ⟨e, he, hq⟩
    refine ⟨key e, (hkeys _).mpr ⟨h.mem_keys_iff.mpr ⟨e, List.mem_of_getElem? he, rfl⟩, hq⟩, ?_⟩
    rw [h.getD, mem_positions_iff]
    exact ⟨e, he, decide_eq_true rfl⟩

end Foundation
