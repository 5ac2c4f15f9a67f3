import Mathlib.Data.List.AList
import Mathlib.Data.List.Induction

/-!
# Finite maps and sets with an iteration order

`HashMap` is a finite map whose entries stand in some order, and `HashSet` a
finite set whose elements do.  Lookups and membership do not depend on the
order; a loop over the entries does, so a statement about every map or set is a
statement about every iteration order.  An `IterOrder` renews the choice: it
enumerates each map in an order of its own.

## Main definitions

* `HashMap`, with `get`, `insert`, `remove`, `modify`, `mapValues`, `toList`.
* `KeyedMap`: a map whose values carry their own keys.
* `HashSet`, with `insert`, `extend`, `filter`.
* `IterOrder`: an enumeration of every map.
* `minBy`: the first least element of an enumeration.

## Main results

* `HashMap.get_insert`, `HashMap.get_remove`, `HashMap.get_modify`: the lookups.
* `HashMap.toList_perm_of_get`: an entry split off from an enumeration.
* `minBy_le`: `minBy` returns a lower bound when the comparison is a total preorder.
-/

namespace Foundation

variable {K V : Type*}

/-! ## Maps -/

/-- A finite map with its entries in iteration order. -/
abbrev HashMap (K V : Type*) := AList fun _ : K => V

namespace HashMap

/-- The entries in iteration order. -/
def toList (m : HashMap K V) : List (K × V) :=
  m.entries.map fun e => (e.1, e.2)

/-- The keys in iteration order. -/
def keys (m : HashMap K V) : List K := AList.keys m

theorem keys_nodup (m : HashMap K V) : m.keys.Nodup := AList.keys_nodup m

theorem map_fst_toList (m : HashMap K V) : m.toList.map Prod.fst = m.keys := by
  simp [toList, keys, AList.keys, List.keys]

theorem nodup_map_fst_toList (m : HashMap K V) : (m.toList.map Prod.fst).Nodup := by
  rw [map_fst_toList]
  exact m.keys_nodup

@[simp] theorem toList_empty : (∅ : HashMap K V).toList = [] := rfl

@[simp] theorem keys_empty : (∅ : HashMap K V).keys = [] := rfl

variable [DecidableEq K]

/-- The value stored under a key. -/
def get (m : HashMap K V) (k : K) : Option V := AList.lookup k m

/-- Stores a value, in place of the key's earlier one. -/
def insert (m : HashMap K V) (k : K) (v : V) : HashMap K V := AList.insert k v m

/-- Drops a key. -/
def remove (m : HashMap K V) (k : K) : HashMap K V := AList.erase k m

/-- Whether the key is stored. -/
def containsKey (m : HashMap K V) (k : K) : Bool := (m.get k).isSome

/-- Rewrites the key's value where it has one. -/
def modify (m : HashMap K V) (k : K) (f : V → V) : HashMap K V :=
  match m.get k with
  | some v => m.insert k (f v)
  | none => m

/-- Rewrites every value in place. -/
def mapValues {W : Type*} (f : K → V → W) (m : HashMap K V) : HashMap K W :=
  ⟨m.entries.map fun e => ⟨e.1, f e.1 e.2⟩, by
    have h := m.nodupKeys
    unfold List.NodupKeys List.keys at h ⊢
    simpa [Function.comp_def] using h⟩

@[simp] theorem get_empty (k : K) : (∅ : HashMap K V).get k = none := rfl

theorem get_insert (m : HashMap K V) (k k' : K) (v : V) :
    (m.insert k v).get k' = if k' = k then some v else m.get k' := by
  by_cases h : k' = k
  · subst h
    rw [if_pos rfl]
    exact AList.lookup_insert _
  · rw [if_neg h]
    exact AList.lookup_insert_ne h

theorem get_remove (m : HashMap K V) (k k' : K) :
    (m.remove k).get k' = if k' = k then none else m.get k' := by
  by_cases h : k' = k
  · subst h
    rw [if_pos rfl]
    exact AList.lookup_erase _ _
  · rw [if_neg h]
    exact AList.lookup_erase_ne h

@[simp] theorem get_insert_self (m : HashMap K V) (k : K) (v : V) :
    (m.insert k v).get k = some v := by
  rw [get_insert, if_pos rfl]

@[simp] theorem get_insert_of_ne (m : HashMap K V) {k k' : K} (v : V) (h : k' ≠ k) :
    (m.insert k v).get k' = m.get k' := by
  rw [get_insert, if_neg h]

@[simp] theorem get_remove_self (m : HashMap K V) (k : K) : (m.remove k).get k = none := by
  rw [get_remove, if_pos rfl]

@[simp] theorem get_remove_of_ne (m : HashMap K V) {k k' : K} (h : k' ≠ k) :
    (m.remove k).get k' = m.get k' := by
  rw [get_remove, if_neg h]

/-- Drops the keys of a list, one by one. -/
def removeAll (m : HashMap K V) (ks : List K) : HashMap K V := ks.foldl remove m

theorem get_removeAll (m : HashMap K V) (ks : List K) (k : K) :
    (m.removeAll ks).get k = if k ∈ ks then none else m.get k := by
  unfold removeAll
  induction ks generalizing m with
  | nil => rfl
  | cons k' ks ih =>
    rw [List.foldl_cons, ih, get_remove]
    by_cases hk : k = k'
    · rw [if_pos hk, if_pos (List.mem_cons.mpr (Or.inl hk)), ite_self]
    · rw [if_neg hk]
      exact if_congr ((List.mem_cons.trans (or_iff_right hk)).symm) rfl rfl

theorem get_modify (m : HashMap K V) (k k' : K) (f : V → V) :
    (m.modify k f).get k' = if k' = k then (m.get k).map f else m.get k' := by
  unfold modify
  cases hk : m.get k with
  | none =>
    by_cases h : k' = k
    · rw [if_pos h, h, hk]
      rfl
    · rw [if_neg h]
  | some v =>
    rw [get_insert]
    rfl

theorem mem_toList_iff {m : HashMap K V} {k : K} {v : V} :
    (k, v) ∈ m.toList ↔ m.get k = some v := by
  unfold toList get
  rw [← Option.mem_def, AList.mem_lookup_iff]
  constructor
  · intro h
    obtain ⟨e, he, heq⟩ := List.mem_map.mp h
    obtain ⟨rfl, rfl⟩ := Prod.mk.inj heq
    exact he
  · exact fun h => List.mem_map.mpr ⟨⟨k, v⟩, h, rfl⟩

theorem mem_keys_iff {m : HashMap K V} {k : K} : k ∈ m.keys ↔ ∃ v, m.get k = some v := by
  rw [← map_fst_toList, List.mem_map]
  constructor
  · rintro ⟨⟨k', v⟩, hmem, rfl⟩
    exact ⟨v, mem_toList_iff.mp hmem⟩
  · rintro ⟨v, hv⟩
    exact ⟨(k, v), mem_toList_iff.mpr hv, rfl⟩

theorem get_eq_none_of_not_mem_keys {m : HashMap K V} {k : K} (h : k ∉ m.keys) :
    m.get k = none := by
  cases hget : m.get k with
  | none => rfl
  | some w => exact absurd (mem_keys_iff.mpr ⟨w, hget⟩) h

theorem get_mapValues {W : Type*} (f : K → V → W) (m : HashMap K V) (k : K) :
    (m.mapValues f).get k = (m.get k).map (f k) := by
  apply Option.ext
  intro w
  rw [← mem_toList_iff, Option.map_eq_some_iff]
  have hlist : (m.mapValues f).toList = m.toList.map fun e => (e.1, f e.1 e.2) := by
    simp [toList, mapValues]
  rw [hlist, List.mem_map]
  constructor
  · rintro ⟨⟨k', v⟩, hmem, heq⟩
    obtain ⟨rfl, rfl⟩ := Prod.mk.inj heq
    exact ⟨v, mem_toList_iff.mp hmem, rfl⟩
  · rintro ⟨v, hv, rfl⟩
    exact ⟨(k, v), mem_toList_iff.mpr hv, rfl⟩

/-- Storing puts the entry in front of the others. -/
theorem toList_insert (m : HashMap K V) (k : K) (v : V) :
    (m.insert k v).toList = (k, v) :: (m.remove k).toList := by
  simp only [toList, insert, remove, AList.entries_insert, List.map_cons]
  rfl

/-- A stored entry split off from the enumeration. -/
theorem toList_perm_of_get {m : HashMap K V} {k : K} {v : V} (h : m.get k = some v) :
    m.toList.Perm ((k, v) :: (m.remove k).toList) := by
  have hmem : (⟨k, v⟩ : Sigma fun _ : K => V) ∈ m.entries := AList.mem_lookup_iff.mp h
  obtain ⟨w, l₁, l₂, -, hl, herase⟩ := List.exists_of_kerase (List.mem_keys_of_mem hmem)
  obtain rfl : v = w := m.nodupKeys.eq_of_mk_mem hmem (by simp [hl])
  have hremove : (m.remove k).toList = (l₁ ++ l₂).map fun e => (e.1, e.2) :=
    congrArg (List.map fun e : Sigma fun _ : K => V => (e.1, e.2)) herase
  rw [hremove, toList, hl]
  simp only [List.map_append, List.map_cons]
  exact List.perm_middle

/-- Dropping an absent key changes nothing. -/
theorem remove_of_get_eq_none {m : HashMap K V} {k : K} (h : m.get k = none) :
    m.remove k = m := by
  apply AList.ext
  show List.kerase k m.entries = m.entries
  exact List.kerase_of_notMem_keys (AList.lookup_eq_none.mp h)

/-- Storing leaves the other keys alone. -/
theorem get_foldl_insert_of_ne {A : Type*} {key : A → K} {val : A → V} {as : List A}
    {m : HashMap K V} {k : K} (h : ∀ a ∈ as, key a ≠ k) :
    (as.foldl (fun m a => m.insert (key a) (val a)) m).get k = m.get k := by
  induction as generalizing m with
  | nil => rfl
  | cons a as ih =>
    rw [List.foldl_cons, ih fun b hb => h b (List.mem_cons_of_mem _ hb)]
    exact get_insert_of_ne m _ (h a List.mem_cons_self).symm

/-- Where equal keys come with equal values, storing them one after the other
stores each. -/
theorem get_foldl_insert_of_mem {A : Type*} {key : A → K} {val : A → V} {as : List A}
    {m : HashMap K V} {a : A} (ha : a ∈ as) (hval : ∀ b ∈ as, key b = key a → val b = val a) :
    (as.foldl (fun m a => m.insert (key a) (val a)) m).get (key a) = some (val a) := by
  induction as generalizing m a with
  | nil => cases ha
  | cons b bs ih =>
    rw [List.foldl_cons]
    by_cases hmem : ∃ c ∈ bs, key c = key a
    · -- some later element decides, and it stores the same value
      obtain ⟨c, hc, hkey⟩ := hmem
      have hc' := hval c (List.mem_cons_of_mem _ hc) hkey
      rw [← hkey, ← hc']
      refine ih hc ?_
      intro d hd hdkey
      rw [hc']
      exact hval d (List.mem_cons_of_mem _ hd) (hdkey.trans hkey)
    · have hlater : ∀ c ∈ bs, key c ≠ key a := fun c hc hkey => hmem ⟨c, hc, hkey⟩
      rw [get_foldl_insert_of_ne hlater]
      rcases List.mem_cons.mp ha with rfl | ha
      · exact get_insert_self m _ _
      · exact absurd rfl (hlater a ha)

/-- Of the values stored under a key one after the other, the last is found. -/
theorem get_foldl_insert {A : Type*} {key : A → K} {val : A → V} (as : List A) (m : HashMap K V)
    (k : K) :
    (as.foldl (fun m a => m.insert (key a) (val a)) m).get k =
      ((as.reverse.find? fun a => decide (key a = k)).map val).or (m.get k) := by
  induction as using List.reverseRecOn with
  | nil => rfl
  | append_singleton as a ih =>
    rw [List.foldl_append, List.foldl_cons, List.foldl_nil, List.reverse_append,
      List.reverse_singleton, List.singleton_append, List.find?_cons, get_insert, ih]
    by_cases h : key a = k
    · simp [h]
    · simp [h, Ne.symm h]

/-- A step that changes a map at one key only, entry by entry, changes it at the key of an entry by
that entry alone. -/
theorem get_foldl_of_local {A : Type*} {step : HashMap K V → A → HashMap K V} {key : A → K}
    {g : A → Option V → Option V}
    (hstep : ∀ m e k, (step m e).get k = if k = key e then g e (m.get k) else m.get k)
    {es : List A} (hnodup : (es.map key).Nodup) (m : HashMap K V) :
    (∀ e ∈ es, (es.foldl step m).get (key e) = g e (m.get (key e))) ∧
      ∀ k, k ∉ es.map key → (es.foldl step m).get k = m.get k := by
  induction es using List.reverseRecOn with
  | nil => exact ⟨fun e he => absurd he List.not_mem_nil, fun k _ => rfl⟩
  | append_singleton es e ih =>
    rw [List.map_append, List.nodup_append] at hnodup
    obtain ⟨hknown, hnew⟩ := ih hnodup.1
    have hlast : key e ∉ es.map key := fun h => hnodup.2.2 _ h _ (by simp) rfl
    rw [List.foldl_append, List.foldl_cons, List.foldl_nil]
    constructor
    · intro e' he'
      rw [hstep]
      rcases List.mem_append.mp he' with he' | he'
      · have hne : key e' ≠ key e := fun h => hlast (h ▸ List.mem_map_of_mem he')
        rw [if_neg hne, hknown e' he']
      · obtain rfl := List.mem_singleton.mp he'
        rw [if_pos rfl, hnew _ hlast]
    · intro k hk
      rw [List.map_append, List.mem_append, not_or] at hk
      rw [List.map_singleton, List.mem_singleton] at hk
      rw [hstep, if_neg hk.2, hnew k hk.1]

/-- The entries of both maps; where both have one, that of the second. -/
def overlay (m seeded : HashMap K V) : HashMap K V :=
  seeded.toList.foldl (fun m e => m.insert e.1 e.2) m

theorem get_overlay (m seeded : HashMap K V) (k : K) :
    (m.overlay seeded).get k = (seeded.get k).or (m.get k) := by
  rw [overlay, get_foldl_insert]
  congr 1
  cases hget : seeded.get k with
  | none =>
    rw [Option.map_eq_none_iff, List.find?_eq_none]
    intro e he
    rw [List.mem_reverse, mem_toList_iff] at he
    rw [decide_eq_true_eq]
    rintro rfl
    rw [hget] at he
    cases he
  | some v =>
    have hmem : (k, v) ∈ seeded.toList := mem_toList_iff.mpr hget
    cases hfind : seeded.toList.reverse.find? fun e => decide (e.1 = k) with
    | none =>
      rw [List.find?_eq_none] at hfind
      exact absurd (decide_eq_true rfl) (hfind (k, v) (List.mem_reverse.mpr hmem))
    | some e =>
      -- the entry that is found has the key, and keys are distinct
      have hkey : e.1 = k := by simpa using List.find?_some hfind
      have he := mem_toList_iff.mp (List.mem_reverse.mp (List.mem_of_find?_eq_some hfind))
      rw [hkey, hget] at he
      rw [Option.map_some, Option.some.inj he]

end HashMap

/-! ## Maps of keyed values -/

/-- A map in which every value is stored under its own key. -/
structure KeyedMap (K N : Type*) [DecidableEq K] (key : N → K) where
  map : HashMap K N
  keyed : ∀ k v, map.get k = some v → key v = k

namespace KeyedMap

variable {N : Type*} [DecidableEq K] {key : N → K}

/-- No values. -/
def empty : KeyedMap K N key := ⟨∅, fun _ _ h => by cases h⟩

/-- The value stored under a key. -/
def get (m : KeyedMap K N key) (k : K) : Option N := m.map.get k

/-- Whether the key is stored. -/
def containsKey (m : KeyedMap K N key) (k : K) : Bool := (m.get k).isSome

/-- Stores a value under its own key. -/
def insert (m : KeyedMap K N key) (v : N) : KeyedMap K N key where
  map := m.map.insert (key v) v
  keyed := fun k w h => by
    rw [HashMap.get_insert] at h
    split at h
    · next hk => rw [← Option.some.inj h, hk]
    · exact m.keyed k w h

/-- The values in iteration order. -/
def values (m : KeyedMap K N key) : List N := m.map.toList.map Prod.snd

/-- The map of a list of values; a later value replaces an earlier one. -/
def ofList (vs : List N) : KeyedMap K N key := vs.foldl insert empty

theorem mem_values_iff {m : KeyedMap K N key} {v : N} :
    v ∈ m.values ↔ m.get (key v) = some v := by
  constructor
  · intro h
    obtain ⟨⟨k, w⟩, hmem, rfl⟩ := List.mem_map.mp h
    have hget := HashMap.mem_toList_iff.mp hmem
    rw [m.keyed k w hget]
    exact hget
  · exact fun h => List.mem_map.mpr ⟨(key v, v), HashMap.mem_toList_iff.mpr h, rfl⟩

theorem get_eq_some_iff {m : KeyedMap K N key} {k : K} {v : N} :
    m.get k = some v ↔ v ∈ m.values ∧ key v = k := by
  constructor
  · intro h
    have hk := m.keyed k v h
    exact ⟨mem_values_iff.mpr (by rw [hk]; exact h), hk⟩
  · rintro ⟨hv, rfl⟩
    exact mem_values_iff.mp hv

/-- Values with equal keys are equal. -/
theorem eq_of_mem_values {m : KeyedMap K N key} {v w : N} (hv : v ∈ m.values)
    (hw : w ∈ m.values) (h : key v = key w) : v = w := by
  rw [mem_values_iff] at hv hw
  rw [h] at hv
  exact Option.some.inj (hv.symm.trans hw)

/-- Copying the values into a map under renamed keys. -/
theorem get_foldl_insert {K' W : Type*} [DecidableEq K'] (m : KeyedMap K N key) {rename : K → K'}
    (hinj : Function.Injective rename) (val : N → W) (acc : HashMap K' W) (k : K) :
    (m.values.foldl (fun acc v => acc.insert (rename (key v)) (val v)) acc).get (rename k) =
      ((m.get k).map val).or (acc.get (rename k)) := by
  cases hk : m.get k with
  | none =>
    rw [HashMap.get_foldl_insert_of_ne]
    · rfl
    intro v hv hkey
    rw [← hinj hkey, mem_values_iff.mp hv] at hk
    cases hk
  | some v =>
    obtain ⟨hv, rfl⟩ := get_eq_some_iff.mp hk
    refine HashMap.get_foldl_insert_of_mem hv ?_
    intro w hw hkey
    rw [eq_of_mem_values hw hv (hinj hkey)]

end KeyedMap

/-! ## Sets -/

/-- A finite set with its elements in iteration order. -/
structure HashSet (K : Type*) where
  toList : List K
  nodup : toList.Nodup

namespace HashSet

instance : Membership K (HashSet K) := ⟨fun s k => k ∈ s.toList⟩

instance : EmptyCollection (HashSet K) := ⟨⟨[], List.nodup_nil⟩⟩

instance : Inhabited (HashSet K) := ⟨∅⟩

theorem mem_iff {s : HashSet K} {k : K} : k ∈ s ↔ k ∈ s.toList := Iff.rfl

@[simp] theorem mem_toList {s : HashSet K} {k : K} : k ∈ s.toList ↔ k ∈ s := Iff.rfl

@[simp] theorem not_mem_empty (k : K) : k ∉ (∅ : HashSet K) := List.not_mem_nil

@[simp] theorem toList_empty : (∅ : HashSet K).toList = [] := rfl

/-- The elements that satisfy a test. -/
def filter (p : K → Bool) (s : HashSet K) : HashSet K :=
  ⟨s.toList.filter p, s.nodup.filter p⟩

@[simp] theorem mem_filter {p : K → Bool} {s : HashSet K} {k : K} :
    k ∈ s.filter p ↔ k ∈ s ∧ p k = true := List.mem_filter

variable [DecidableEq K]

instance (k : K) (s : HashSet K) : Decidable (k ∈ s) :=
  inferInstanceAs (Decidable (k ∈ s.toList))

instance (s : HashSet K) (P : K → Prop) [∀ k, Decidable (P k)] : Decidable (∀ k ∈ s, P k) :=
  inferInstanceAs (Decidable (∀ k ∈ s.toList, P k))

/-- Adds an element. -/
def insert (s : HashSet K) (k : K) : HashSet K :=
  if h : k ∈ s.toList then s else ⟨k :: s.toList, List.nodup_cons.mpr ⟨h, s.nodup⟩⟩

/-- Adds the elements of a list, one by one. -/
def extend (s : HashSet K) (ks : List K) : HashSet K := ks.foldl insert s

/-- The set of a list's elements. -/
def ofList (ks : List K) : HashSet K := (∅ : HashSet K).extend ks

/-- Drops an element. -/
def remove (s : HashSet K) (k : K) : HashSet K := s.filter fun k' => decide (k' ≠ k)

/-- Drops the elements of a list, one by one. -/
def removeAll (s : HashSet K) (ks : List K) : HashSet K := ks.foldl remove s

@[simp] theorem mem_insert {s : HashSet K} {k k' : K} : k' ∈ s.insert k ↔ k' = k ∨ k' ∈ s := by
  unfold insert
  split
  · next h =>
    refine ⟨Or.inr, fun hor => hor.elim (fun heq => heq ▸ h) id⟩
  · exact List.mem_cons

@[simp] theorem mem_extend {s : HashSet K} {ks : List K} {k : K} :
    k ∈ s.extend ks ↔ k ∈ s ∨ k ∈ ks := by
  unfold extend
  induction ks generalizing s with
  | nil => simp
  | cons k' ks ih =>
    rw [List.foldl_cons, ih, mem_insert, List.mem_cons]
    tauto

@[simp] theorem mem_ofList {ks : List K} {k : K} : k ∈ ofList ks ↔ k ∈ ks := by
  simp [ofList]

@[simp] theorem mem_remove {s : HashSet K} {k k' : K} : k' ∈ s.remove k ↔ k' ≠ k ∧ k' ∈ s := by
  simp [remove, and_comm]

@[simp] theorem mem_removeAll {s : HashSet K} {ks : List K} {k : K} :
    k ∈ s.removeAll ks ↔ k ∈ s ∧ k ∉ ks := by
  unfold removeAll
  induction ks generalizing s with
  | nil => simp
  | cons k' ks ih =>
    rw [List.foldl_cons, ih, mem_remove, List.mem_cons]
    tauto

end HashSet

/-! ## Enumerations -/

/-- A choice of iteration order for every map. -/
structure IterOrder (K V : Type*) where
  order : HashMap K V → List (K × V)
  perm : ∀ m, (order m).Perm m.toList

/-- Every map in the order its entries stand in. -/
def IterOrder.stored : IterOrder K V := ⟨HashMap.toList, fun _ => List.Perm.refl _⟩

/-- The first least element of an enumeration: a later one replaces it only
when the comparison says it is strictly less. -/
def minBy {α : Type*} (cmp : α → α → Ordering) : List α → Option α
  | [] => none
  | a :: as => some (as.foldl (fun x y => if cmp x y = .gt then y else x) a)

section MinBy

variable {α : Type*} {cmp : α → α → Ordering}

theorem foldl_min_mem (a : α) (as : List α) :
    as.foldl (fun x y => if cmp x y = .gt then y else x) a ∈ a :: as := by
  induction as generalizing a with
  | nil => simp
  | cons b bs ih =>
    rw [List.foldl_cons]
    split
    · exact List.mem_cons_of_mem _ (ih b)
    · rcases List.mem_cons.mp (ih a) with h | h
      · rw [h]
        exact List.mem_cons_self
      · exact List.mem_cons_of_mem _ (List.mem_cons_of_mem _ h)

theorem minBy_mem {as : List α} {m : α} (h : minBy cmp as = some m) : m ∈ as := by
  cases as with
  | nil => cases h
  | cons a as =>
    obtain rfl := Option.some.inj h
    exact foldl_min_mem a as

theorem minBy_eq_none_iff {as : List α} : minBy cmp as = none ↔ as = [] := by
  cases as <;> simp [minBy]

theorem foldl_min_le [Std.TransCmp cmp] (a : α) (as : List α) :
    ∀ b ∈ a :: as, cmp (as.foldl (fun x y => if cmp x y = .gt then y else x) a) b ≠ .gt := by
  induction as generalizing a with
  | nil => simp [Std.ReflCmp.compare_self]
  | cons c cs ih =>
    intro b hb
    rw [List.foldl_cons]
    -- the fold goes on from the lesser of `a` and `c`
    have keep (x y : α) (hx : ∀ z ∈ x :: cs, cmp
        (cs.foldl (fun x y => if cmp x y = .gt then y else x) x) z ≠ .gt) (hxy : cmp x y ≠ .gt) :
        cmp (cs.foldl (fun x y => if cmp x y = .gt then y else x) x) y ≠ .gt := by
      have hx' := Ordering.ne_gt_iff_isLE.mp (hx x List.mem_cons_self)
      exact Ordering.ne_gt_iff_isLE.mpr
        (Std.TransCmp.isLE_trans hx' (Ordering.ne_gt_iff_isLE.mp hxy))
    by_cases hac : cmp a c = .gt
    · rw [if_pos hac]
      rcases List.mem_cons.mp hb with rfl | hb
      · refine keep c b (ih c) ?_
        rw [@Std.OrientedCmp.eq_swap _ cmp _ c b, hac]
        decide
      · exact ih c b hb
    · rw [if_neg hac]
      rcases List.mem_cons.mp hb with rfl | hb
      · exact ih b b List.mem_cons_self
      · rcases List.mem_cons.mp hb with rfl | hb
        · exact keep a b (ih a) hac
        · exact ih a b (List.mem_cons_of_mem _ hb)

/-- `minBy` returns a lower bound of the enumeration. -/
theorem minBy_le [Std.TransCmp cmp] {as : List α} {m : α} (h : minBy cmp as = some m) :
    ∀ b ∈ as, cmp m b ≠ .gt := by
  cases as with
  | nil => cases h
  | cons a as =>
    obtain rfl := Option.some.inj h
    exact foldl_min_le a as

end MinBy

end Foundation
