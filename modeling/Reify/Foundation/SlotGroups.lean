import Mathlib.Data.List.Induction
import Mathlib.Data.List.Pairwise
import Mathlib.Logic.Function.Basic
import Mathlib.Order.Basic

/-!
# Groups in the order of their first members

A pass over a list collects its elements by key.  A key gets the next free slot when one of
its elements is seen for the first time, so that the groups stand in the order of their
first members, and each group keeps the order of the list.

## Main definitions

* `Slots`: the slot of each key, and the groups.
* `slotGroups`: the pass.

## Main results

* `slotGroups_cons`: the first group is that of the first element, and the others are those
  of the elements with other keys.
* `mem_slotGroups`, `perm_flatten_slotGroups`, `pairwise_slotGroups`: every element is in
  one group, and the groups are ordered by their first members.
* `slotGroups_congr`: the groups do not depend on the keys themselves, only on which
  elements have the same one.
-/

namespace Foundation

variable {A K L : Type*} [DecidableEq K] [DecidableEq L]

/-- The slot of each key, and the groups so far with their keys. -/
structure Slots (A K : Type*) where
  slotOf : K → Option ℕ
  groups : List (K × List A)

namespace Slots

def empty : Slots A K := ⟨fun _ => none, []⟩

/-- The slot of a key; a key without one gets the next. -/
def slot (s : Slots A K) (k : K) : ℕ × Slots A K :=
  match s.slotOf k with
  | some slot => (slot, s)
  | none => (s.groups.length,
      ⟨Function.update s.slotOf k (some s.groups.length), s.groups ++ [(k, [])]⟩)

/-- Puts an element into the group of its key. -/
def add (s : Slots A K) (k : K) (a : A) : Slots A K :=
  let (slot, s) := s.slot k
  { s with groups := s.groups.modify slot fun group => (group.1, group.2 ++ [a]) }

end Slots

/-- The groups of a list, with their keys. -/
def slotGroups (key : A → K) (as : List A) : List (K × List A) :=
  (as.foldl (fun s a => s.add (key a) a) (Slots.empty : Slots A K)).groups

/-! ## The pass in closed form -/

variable {key : A → K}

theorem eraseDups_concat (ks : List K) (k : K) :
    (ks ++ [k]).eraseDups = if k ∈ ks then ks.eraseDups else ks.eraseDups ++ [k] := by
  rw [List.eraseDups_append]
  by_cases hk : k ∈ ks
  · simp [List.removeAll, hk]
  · simp [List.removeAll, hk, List.eraseDups_cons]

/-- A slot is given to the keys seen, in the order in which they were seen first, and a
group has all the elements with its key. -/
structure SlotInv (key : A → K) (as : List A) (s : Slots A K) : Prop where
  slotOf : ∀ k i, s.slotOf k = some i ↔ (as.map key).eraseDups[i]? = some k
  groups : s.groups = (as.map key).eraseDups.map fun k => (k, as.filter fun a => key a = k)

theorem slotInv_empty : SlotInv key [] (Slots.empty : Slots A K) where
  slotOf k i := by simp [Slots.empty]
  groups := rfl

theorem SlotInv.length_groups {as : List A} {s : Slots A K} (h : SlotInv key as s) :
    s.groups.length = (as.map key).eraseDups.length := by
  rw [h.groups, List.length_map]

theorem SlotInv.slotOf_eq_none {as : List A} {s : Slots A K} (h : SlotInv key as s) {k : K} :
    s.slotOf k = none ↔ k ∉ as.map key := by
  rw [← List.mem_eraseDups, List.mem_iff_getElem?, Option.eq_none_iff_forall_not_mem, not_exists]
  exact forall_congr' fun i => not_congr (h.slotOf k i)

theorem SlotInv.add {as : List A} {s : Slots A K} (h : SlotInv key as s) (a : A) :
    SlotInv key (as ++ [a]) (s.add (key a) a) := by
  cases hslot : s.slotOf (key a) with
  | some slot =>
    -- the key was seen before: its group grows, and the others do not change
    have hat := (h.slotOf _ _).mp hslot
    have hmem : key a ∈ as.map key := List.mem_eraseDups.mp (List.mem_of_getElem? hat)
    have hkeys : ((as ++ [a]).map key).eraseDups = (as.map key).eraseDups := by
      rw [List.map_append, List.map_singleton, eraseDups_concat, if_pos hmem]
    have hadd : s.add (key a) a =
        { s with groups := s.groups.modify slot fun group => (group.1, group.2 ++ [a]) } := by
      simp only [Slots.add, Slots.slot, hslot]
    refine ⟨fun k i => ?_, ?_⟩
    · rw [hkeys, hadd]
      exact h.slotOf k i
    · rw [hkeys, hadd]
      apply List.ext_getElem?
      intro i
      simp only [List.getElem?_modify, h.groups, List.getElem?_map, List.filter_append]
      cases hi : (as.map key).eraseDups[i]? with
      | none => simp
      | some k =>
        have hk : slot = i ↔ key a = k := by
          constructor
          · rintro rfl
            exact Option.some.inj (hat.symm.trans hi)
          · rintro rfl
            exact Option.some.inj (hslot.symm.trans ((h.slotOf _ _).mpr hi))
        by_cases hsame : key a = k
        · simp [hk.mpr hsame, hsame]
        · simp [mt hk.mp hsame, hsame]
  | none =>
    -- the key is new: it gets the slot behind the last one
    have hnew : key a ∉ as.map key := h.slotOf_eq_none.mp hslot
    have hkeys : ((as ++ [a]).map key).eraseDups = (as.map key).eraseDups ++ [key a] := by
      rw [List.map_append, List.map_singleton, eraseDups_concat, if_neg hnew]
    have hadd : s.add (key a) a =
        ⟨Function.update s.slotOf (key a) (some s.groups.length),
          s.groups ++ [(key a, [a])]⟩ := by
      simp only [Slots.add, Slots.slot, hslot]
      congr 1
      apply List.ext_getElem?
      intro i
      rw [List.getElem?_modify]
      grind
    refine ⟨fun k i => ?_, ?_⟩
    · rw [hkeys, hadd]
      by_cases hk : k = key a
      · rw [hk]
        simp only [Function.update_self, Option.some.injEq, h.length_groups]
        constructor
        · rintro rfl
          exact List.getElem?_concat_length ..
        · intro hi
          rw [List.getElem?_append] at hi
          split at hi
          · exact absurd (List.mem_eraseDups.mp (List.mem_of_getElem? hi)) hnew
          · grind
      · simp only [Function.update_of_ne hk, h.slotOf]
        rw [List.getElem?_append]
        split
        · rfl
        · grind
    · rw [hkeys, hadd]
      simp only [h.groups, List.map_append, List.map_cons, List.map_nil, List.filter_append]
      congr 1
      · apply List.map_congr_left
        intro k hk
        have hne : key a ≠ k := by
          rintro rfl
          exact hnew (List.mem_eraseDups.mp hk)
        simp [hne]
      · have hnone : as.filter (fun b => key b = key a) = [] := by
          rw [List.filter_eq_nil_iff]
          intro b hb heq
          exact hnew (List.mem_map.mpr ⟨b, hb, by simpa using heq⟩)
        simp [hnone]

theorem slotInv_foldl (key : A → K) (as : List A) :
    SlotInv key as (as.foldl (fun s a => s.add (key a) a) Slots.empty) := by
  induction as using List.reverseRecOn with
  | nil => exact slotInv_empty
  | append_singleton as a ih =>
    rw [List.foldl_append]
    exact ih.add a

theorem slotGroups_eq (key : A → K) (as : List A) :
    slotGroups key as = (as.map key).eraseDups.map fun k => (k, as.filter fun a => key a = k) :=
  (slotInv_foldl key as).groups

/-! ## The groups -/

@[simp] theorem slotGroups_nil (key : A → K) : slotGroups key [] = [] := rfl

/-- **The first group is that of the first element.** -/
theorem slotGroups_cons (key : A → K) (a : A) (as : List A) :
    slotGroups key (a :: as) = (key a, a :: as.filter fun b => key b = key a) ::
      slotGroups key (as.filter fun b => key b ≠ key a) := by
  rw [slotGroups_eq, slotGroups_eq, List.map_cons, List.eraseDups_cons, List.map_cons]
  have hkeys : (as.map key).filter (fun k => !k == key a) =
      (as.filter fun b => key b ≠ key a).map key := by
    rw [List.filter_map]
    congr 1
    apply List.filter_congr
    intro b _
    simp [Function.comp, beq_eq_decide]
  rw [hkeys]
  congr 1
  · simp
  · apply List.map_congr_left
    intro k hk
    obtain ⟨b, hb, rfl⟩ := List.mem_map.mp (List.mem_eraseDups.mp hk)
    have hne : key b ≠ key a := by simpa using (List.mem_filter.mp hb).2
    rw [List.filter_cons_of_neg (by simpa using hne.symm), List.filter_filter]
    congr 1
    apply List.filter_congr
    intro c _
    by_cases hc : key c = key b
    · simp [hc, hne]
    · simp [hc]

/-- Groups by induction: the group of the first element, and the groups of the elements
with other keys. -/
theorem slotGroups_induction {P : List A → Prop} (key : A → K) (hnil : P [])
    (hcons : ∀ a as, P (as.filter fun b => key b ≠ key a) → P (a :: as)) (as : List A) : P as := by
  induction hn : as.length using Nat.strongRecOn generalizing as with
  | _ n ih =>
    cases as with
    | nil => exact hnil
    | cons a as =>
      refine hcons a as (ih _ ?_ _ rfl)
      rw [← hn, List.length_cons]
      exact Nat.lt_succ_of_le (List.length_filter_le _ _)

/-- A group has the elements with its key, in their order, and at least one. -/
theorem mem_slotGroups {as : List A} {group : K × List A} :
    group ∈ slotGroups key as ↔ group.1 ∈ as.map key ∧
      group.2 = as.filter fun a => key a = group.1 := by
  rw [slotGroups_eq, List.mem_map]
  constructor
  · rintro ⟨k, hk, rfl⟩
    exact ⟨List.mem_eraseDups.mp hk, rfl⟩
  · rintro ⟨hk, hgroup⟩
    exact ⟨group.1, List.mem_eraseDups.mpr hk, Prod.ext rfl hgroup.symm⟩

theorem ne_nil_of_mem_slotGroups {as : List A} {group : K × List A}
    (h : group ∈ slotGroups key as) : group.2 ≠ [] := by
  obtain ⟨hk, hgroup⟩ := mem_slotGroups.mp h
  obtain ⟨a, ha, hkey⟩ := List.mem_map.mp hk
  rw [hgroup]
  exact List.ne_nil_of_mem (List.mem_filter.mpr ⟨ha, by simpa using hkey⟩)

/-- Two groups have different keys. -/
theorem nodup_keys_slotGroups (key : A → K) (as : List A) :
    ((slotGroups key as).map Prod.fst).Nodup := by
  refine slotGroups_induction (P := fun as => ((slotGroups key as).map Prod.fst).Nodup) key
    List.nodup_nil ?_ as
  intro a as ih
  rw [slotGroups_cons, List.map_cons, List.nodup_cons]
  refine ⟨fun hmem => ?_, ih⟩
  obtain ⟨group, hgroup, hkey⟩ := List.mem_map.mp hmem
  obtain ⟨b, hb, hb'⟩ := List.mem_map.mp (mem_slotGroups.mp hgroup).1
  have hne := (List.mem_filter.mp hb).2
  exact absurd (hb'.trans hkey) (by simpa using hne)

/-- **Every element is in one group.** -/
theorem perm_flatten_slotGroups (key : A → K) (as : List A) :
    ((slotGroups key as).map Prod.snd).flatten.Perm as := by
  refine slotGroups_induction (P := fun as => ((slotGroups key as).map Prod.snd).flatten.Perm as)
    key (List.Perm.refl _) ?_ as
  intro a as ih
  rw [slotGroups_cons, List.map_cons, List.flatten_cons, List.cons_append]
  refine List.Perm.cons a ((List.Perm.append_left _ ih).trans ?_)
  have hne : as.filter (fun b => key b ≠ key a) = as.filter fun b => !decide (key b = key a) := by
    simp
  rw [hne]
  exact List.filter_append_perm _ as

/-- **The groups are ordered by their first members.** -/
theorem pairwise_slotGroups {r : A → A → Prop} {as : List A} (h : as.Pairwise r) :
    ((slotGroups key as).map Prod.snd).Pairwise fun group group' =>
      ∀ a ∈ group.head?, ∀ b ∈ group', r a b := by
  revert h
  refine slotGroups_induction (P := fun as => as.Pairwise r →
    ((slotGroups key as).map Prod.snd).Pairwise fun group group' =>
      ∀ a ∈ group.head?, ∀ b ∈ group', r a b) key (fun _ => List.Pairwise.nil) ?_ as
  intro a as ih h
  obtain ⟨hfirst, hrest⟩ := List.pairwise_cons.mp h
  rw [slotGroups_cons, List.map_cons, List.pairwise_cons]
  refine ⟨?_, ih (hrest.filter _)⟩
  intro group' hgroup' x hx b hb
  obtain ⟨group, hgroup, rfl⟩ := List.mem_map.mp hgroup'
  rw [List.head?_cons, Option.mem_some_iff] at hx
  subst hx
  rw [(mem_slotGroups.mp hgroup).2] at hb
  exact hfirst b (List.mem_filter.mp (List.mem_filter.mp hb).1).1

/-- **The groups depend only on which elements have the same key.** -/
theorem slotGroups_congr {key : A → K} {key' : A → L} {as : List A}
    (h : ∀ a ∈ as, ∀ b ∈ as, key a = key b ↔ key' a = key' b) :
    (slotGroups key as).map Prod.snd = (slotGroups key' as).map Prod.snd := by
  revert h
  refine slotGroups_induction (P := fun as => (∀ a ∈ as, ∀ b ∈ as, key a = key b ↔
    key' a = key' b) → (slotGroups key as).map Prod.snd = (slotGroups key' as).map Prod.snd)
    key (fun _ => rfl) ?_ as
  intro a as ih h
  have hsame : ∀ b ∈ as, (key b = key a ↔ key' b = key' a) := fun b hb =>
    h b (List.mem_cons_of_mem _ hb) a (List.mem_cons_self ..)
  have hfilter : as.filter (fun b => key b = key a) = as.filter fun b => key' b = key' a :=
    List.filter_congr fun b hb => by rw [decide_eq_decide]; exact hsame b hb
  have hrest : as.filter (fun b => key b ≠ key a) = as.filter fun b => key' b ≠ key' a :=
    List.filter_congr fun b hb => by rw [decide_eq_decide]; exact not_congr (hsame b hb)
  rw [slotGroups_cons, slotGroups_cons, List.map_cons, List.map_cons, hfilter, ← hrest, ih]
  intro b hb c hc
  exact h b (List.mem_cons_of_mem _ (List.mem_filter.mp hb).1) c
    (List.mem_cons_of_mem _ (List.mem_filter.mp hc).1)

end Foundation
