import Reify.Foundation.HashMap

/-!
# Taking runs of entries out of keyed maps, and putting them in

## Main definitions

* `KeyedMap.remove`, `KeyedMap.removeAll`, `KeyedMap.insertAll`.

## Main results

* `KeyedMap.get_removeAll`, `KeyedMap.get_insertAll_of_mem`,
  `KeyedMap.get_insertAll_of_not_mem`: what is found afterwards.
-/

namespace Foundation

variable {K : Type*} [DecidableEq K]

namespace KeyedMap

variable {N : Type*} {key : N → K}

theorem get_insert (m : KeyedMap K N key) (v : N) (k : K) :
    (m.insert v).get k = if k = key v then some v else m.get k :=
  HashMap.get_insert _ _ _ _

/-- Drops what is stored under a key. -/
def remove (m : KeyedMap K N key) (k : K) : KeyedMap K N key where
  map := m.map.remove k
  keyed := fun k' v h => by
    rw [HashMap.get_remove] at h
    split at h
    · cases h
    · exact m.keyed k' v h

theorem get_remove (m : KeyedMap K N key) (k k' : K) :
    (m.remove k).get k' = if k' = k then none else m.get k' :=
  HashMap.get_remove _ _ _

/-- Drops what is stored under several keys. -/
def removeAll (m : KeyedMap K N key) (ks : List K) : KeyedMap K N key := ks.foldl remove m

theorem get_removeAll (m : KeyedMap K N key) (ks : List K) (k : K) :
    (m.removeAll ks).get k = if k ∈ ks then none else m.get k := by
  unfold removeAll
  induction ks generalizing m with
  | nil => rfl
  | cons k' ks ih =>
    rw [List.foldl_cons, ih, get_remove]
    by_cases hmem : k ∈ ks
    · simp [hmem]
    · by_cases hk : k = k' <;> simp [hmem, hk]

/-- Stores several values. -/
def insertAll (m : KeyedMap K N key) (vs : List N) : KeyedMap K N key := vs.foldl insert m

/-- Of values with different keys, each is found under its own. -/
theorem get_insertAll_of_mem {m : KeyedMap K N key} {vs : List N} (hnodup : (vs.map key).Nodup)
    {v : N} (hv : v ∈ vs) : (m.insertAll vs).get (key v) = some v := by
  unfold insertAll
  induction vs generalizing m with
  | nil => cases hv
  | cons w vs ih =>
    rw [List.map_cons, List.nodup_cons] at hnodup
    rcases List.mem_cons.mp hv with rfl | hv
    · -- no later value has the key
      have hlater (m : KeyedMap K N key) (ws : List N) (h : key v ∉ ws.map key) :
          (ws.foldl insert m).get (key v) = m.get (key v) := by
        induction ws generalizing m with
        | nil => rfl
        | cons w ws ihw =>
          rw [List.map_cons, List.mem_cons, not_or] at h
          rw [List.foldl_cons, ihw _ h.2, get_insert, if_neg h.1]
      rw [List.foldl_cons, hlater _ _ hnodup.1, get_insert, if_pos rfl]
    · exact ih hnodup.2 hv

theorem get_insertAll_of_not_mem {m : KeyedMap K N key} {vs : List N} {k : K}
    (hk : k ∉ vs.map key) : (m.insertAll vs).get k = m.get k := by
  unfold insertAll
  induction vs generalizing m with
  | nil => rfl
  | cons v vs ih =>
    rw [List.map_cons, List.mem_cons, not_or] at hk
    rw [List.foldl_cons, ih hk.2, get_insert, if_neg hk.1]

end KeyedMap

end Foundation
