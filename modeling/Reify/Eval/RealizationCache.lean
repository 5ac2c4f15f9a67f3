import Reify.Eval.ToleranceBucket
import Reify.Foundation.Decimal
import Reify.Foundation.HashMap
import Reify.Foundation.SplitOnce
import Reify.Ir.Value

/-!
# The realization cache

Realized geometry by entity, representation, options and tolerance.  The family
of an entity is its own entries and those of the conversion intermediates its
realization produced, which stand under keys of their own; an index lists these
keys, so that a family can be evicted as a whole.

## Main definitions

* `RealizationCache`, with its operations, and `RealizationCache.bucketAt`.
* `RealizationCache.intermediateKey`: the key of an owner's conversion intermediate.
* `RealizationCache.InFamily`: the keys of an entity's family.
* `RealizationOp`, `RealizationCache.run`: runs of the operations.
* `RealizationCache.Sound`: the invariant.

## Main results

* `RealizationCache.intermediateKey_inj`: an intermediate key names its owner and slot.
* `RealizationCache.Sound.apply`: every operation keeps the invariant.
* `RealizationCache.Sound.covers_apply`: a hit is lost to a removal or an eviction only.
* `RealizationCache.families_run`: what holds over whole runs.
-/

namespace Reify

open Foundation

variable {V H : Type}

/-- The kinds of geometry representation. -/
inductive ReprKind where
  | bRep
  | mesh
  | sdf
  | voxel
  | volumeMesh
deriving DecidableEq, Repr

/-- Which input of its owner a conversion intermediate converts. -/
inductive ConversionSlot where
  | step (idx : Nat)
  | external (handle : GeometryHandleId)
deriving DecidableEq, Repr

/-- Buckets by representation, key and options. -/
structure RealizationCache (V H : Type) where
  buckets : HashMap ReprKind (HashMap String (HashMap H (ToleranceBucket V)))
  terminalEntries : Nat
  intermediatesByOwner : HashMap String (HashSet String)

namespace RealizationCache

/-- No entries. -/
def new : RealizationCache V H := ⟨∅, 0, ∅⟩

/-- Drops the entries; the counter stays. -/
def clear (c : RealizationCache V H) : RealizationCache V H :=
  { c with buckets := ∅, intermediatesByOwner := ∅ }

/-- The key of the intermediate that the owner's realization made for an input. -/
def intermediateKey (owner : String) : ConversionSlot → String
  | .step idx => owner ++ "#conv-step" ++ idx.repr
  | .external handle => owner ++ "#conv-ext" ++ handle.id.toNat.repr

variable [DecidableEq H]

/-- The bucket under a key, empty when there is none. -/
def bucketAt (c : RealizationCache V H) (key : String) (reprKind : ReprKind) (optionsHash : H) :
    ToleranceBucket V :=
  ((((c.buckets.get reprKind).getD ∅).get key).getD ∅).get optionsHash |>.getD .new

/-- Stores a bucket, with the maps on the way to it. -/
def setBucket (c : RealizationCache V H) (key : String) (reprKind : ReprKind) (optionsHash : H)
    (b : ToleranceBucket V) : RealizationCache V H :=
  let inner := (c.buckets.get reprKind).getD ∅
  let byOptions := (inner.get key).getD ∅
  { c with
    buckets := c.buckets.insert reprKind (inner.insert key (byOptions.insert optionsHash b)) }

/-- Inserts into the key's bucket. -/
def insert (c : RealizationCache V H) (entity : String) (reprKind : ReprKind) (tol : F64)
    (optionsHash : H) (val : V) : RealizationCache V H × Bool :=
  let inserted := (c.bucketAt entity reprKind optionsHash).insert tol val
  (c.setBucket entity reprKind optionsHash inserted.1, inserted.2)

/-- Inserts, and counts when the bucket accepts. -/
def insertTerminal (c : RealizationCache V H) (entity : String) (reprKind : ReprKind) (tol : F64)
    (optionsHash : H) (val : V) : RealizationCache V H × Bool :=
  let inserted := c.insert entity reprKind tol optionsHash val
  if inserted.2 then
    ({ inserted.1 with terminalEntries := inserted.1.terminalEntries + 1 }, inserted.2)
  else inserted

/-- The value of the loosest entry that serves the request. -/
def lookup (c : RealizationCache V H) (entity : String) (reprKind : ReprKind) (tol : F64)
    (optionsHash : H) : Option V :=
  (c.buckets.get reprKind).bind fun inner => (inner.get entity).bind fun byOptions =>
    (byOptions.get optionsHash).bind fun b => b.lookup tol

/-- Takes out the entry at exactly the given tolerance. -/
def removeExact (c : RealizationCache V H) (key : String) (reprKind : ReprKind) (tol : F64)
    (optionsHash : H) : RealizationCache V H × Option V :=
  match (c.buckets.get reprKind).bind fun inner => (inner.get key).bind fun byOptions =>
    byOptions.get optionsHash with
  | none => (c, none)
  | some b => (c.setBucket key reprKind optionsHash (b.remove tol).1, (b.remove tol).2)

/-- Takes out a terminal entry. -/
def remove (c : RealizationCache V H) (entity : String) (reprKind : ReprKind) (tol : F64)
    (optionsHash : H) : RealizationCache V H × Option V :=
  c.removeExact entity reprKind tol optionsHash

omit [DecidableEq H] in
/-- Whether some bucket under the key has an entry. -/
def holdsAnyEntry (c : RealizationCache V H) (key : String) : Bool :=
  (c.buckets.toList.filterMap fun inner => inner.2.get key).any fun byOptions =>
    byOptions.toList.any fun b => !b.2.entries.isEmpty

/-- Inserts a conversion intermediate and lists its key under the owner. -/
def insertIntermediate (c : RealizationCache V H) (owner : String) (slot : ConversionSlot)
    (reprKind : ReprKind) (tol : F64) (optionsHash : H) (val : V) : RealizationCache V H × Bool :=
  let key := intermediateKey owner slot
  let inserted := c.insert key reprKind tol optionsHash val
  let keys := ((c.intermediatesByOwner.get owner).getD ∅).insert key
  ({ inserted.1 with intermediatesByOwner := c.intermediatesByOwner.insert owner keys },
    inserted.2)

omit [DecidableEq H] in
/-- Takes a key off the owner's list, and the list when that leaves it empty. -/
def unlist (c : RealizationCache V H) (owner key : String) : RealizationCache V H :=
  match c.intermediatesByOwner.get owner with
  | none => c
  | some keys =>
    if (keys.remove key).toList.isEmpty then
      { c with intermediatesByOwner := c.intermediatesByOwner.remove owner }
    else
      { c with intermediatesByOwner := c.intermediatesByOwner.insert owner (keys.remove key) }

/-- Takes out a conversion intermediate; a key left without entries is unlisted. -/
def removeIntermediate (c : RealizationCache V H) (owner : String) (slot : ConversionSlot)
    (reprKind : ReprKind) (tol : F64) (optionsHash : H) : RealizationCache V H × Option V :=
  let key := intermediateKey owner slot
  let removed := c.removeExact key reprKind tol optionsHash
  if removed.1.holdsAnyEntry key then removed else (removed.1.unlist owner key, removed.2)

omit [DecidableEq H] in
/-- Drops the entity's entries and those of the intermediates listed under it. -/
def evictFamily (c : RealizationCache V H) (entity : String) : RealizationCache V H :=
  let owned := (c.intermediatesByOwner.get entity).getD ∅
  { c with
    buckets := c.buckets.mapValues fun _ byEntity =>
      (byEntity.remove entity).removeAll owned.toList
    intermediatesByOwner := c.intermediatesByOwner.remove entity }

end RealizationCache

/-! ## Runs -/

/-- A call that changes the cache. -/
inductive RealizationOp (V H : Type) where
  | insert (entity : String) (reprKind : ReprKind) (tol : F64) (optionsHash : H) (val : V)
  | insertTerminal (entity : String) (reprKind : ReprKind) (tol : F64) (optionsHash : H) (val : V)
  | insertIntermediate (owner : String) (slot : ConversionSlot) (reprKind : ReprKind) (tol : F64)
      (optionsHash : H) (val : V)
  | remove (entity : String) (reprKind : ReprKind) (tol : F64) (optionsHash : H)
  | removeIntermediate (owner : String) (slot : ConversionSlot) (reprKind : ReprKind) (tol : F64)
      (optionsHash : H)
  | evictFamily (entity : String)
  | clear

namespace RealizationCache

section Runs

variable [DecidableEq H]

/-- The cache after a call. -/
def apply (c : RealizationCache V H) : RealizationOp V H → RealizationCache V H
  | .insert entity reprKind tol optionsHash val =>
    (c.insert entity reprKind tol optionsHash val).1
  | .insertTerminal entity reprKind tol optionsHash val =>
    (c.insertTerminal entity reprKind tol optionsHash val).1
  | .insertIntermediate owner slot reprKind tol optionsHash val =>
    (c.insertIntermediate owner slot reprKind tol optionsHash val).1
  | .remove entity reprKind tol optionsHash => (c.remove entity reprKind tol optionsHash).1
  | .removeIntermediate owner slot reprKind tol optionsHash =>
    (c.removeIntermediate owner slot reprKind tol optionsHash).1
  | .evictFamily entity => c.evictFamily entity
  | .clear => c.clear

/-- The cache after a run. -/
def run (ops : List (RealizationOp V H)) : RealizationCache V H := ops.foldl apply new

/-- Whether an insertion at the key and tolerance is accepted. -/
def AcceptsAt (c : RealizationCache V H) (key : String) (reprKind : ReprKind) (optionsHash : H)
    (tol : F64) : RealizationOp V H → Prop
  | .insert entity reprKind' tol' optionsHash' val =>
    (entity, reprKind', optionsHash', tol') = (key, reprKind, optionsHash, tol) ∧
      (c.insert entity reprKind' tol' optionsHash' val).2 = true
  | .insertTerminal entity reprKind' tol' optionsHash' val =>
    (entity, reprKind', optionsHash', tol') = (key, reprKind, optionsHash, tol) ∧
      (c.insertTerminal entity reprKind' tol' optionsHash' val).2 = true
  | .insertIntermediate owner slot reprKind' tol' optionsHash' val =>
    (intermediateKey owner slot, reprKind', optionsHash', tol') =
        (key, reprKind, optionsHash, tol) ∧
      (c.insertIntermediate owner slot reprKind' tol' optionsHash' val).2 = true
  | _ => False

/-- Whether the call is an accepted `insertTerminal`. -/
def acceptsTerminal (c : RealizationCache V H) : RealizationOp V H → Bool
  | .insertTerminal entity reprKind tol optionsHash val =>
    (c.insertTerminal entity reprKind tol optionsHash val).2
  | _ => false

/-- How many calls of a run are accepted `insertTerminal` calls. -/
def acceptedTerminals (c : RealizationCache V H) : List (RealizationOp V H) → Nat
  | [] => 0
  | op :: ops => (if c.acceptsTerminal op then 1 else 0) + (c.apply op).acceptedTerminals ops

end Runs

/-! ## Keys of intermediates -/

/-- What an intermediate key puts after its owner's name. -/
def slotSuffix : ConversionSlot → List Char
  | .step idx => "conv-step".toList ++ Nat.toDigits 10 idx
  | .external handle => "conv-ext".toList ++ Nat.toDigits 10 handle.id.toNat

theorem toList_intermediateKey (owner : String) (slot : ConversionSlot) :
    (intermediateKey owner slot).toList = owner.toList ++ '#' :: slotSuffix slot := by
  cases slot with
  | step idx =>
    have hmarker : "#conv-step".toList = '#' :: "conv-step".toList := by decide
    rw [intermediateKey, String.toList_append, String.toList_append, Nat.toList_repr, hmarker,
      List.append_assoc]
    rfl
  | external handle =>
    have hmarker : "#conv-ext".toList = '#' :: "conv-ext".toList := by decide
    rw [intermediateKey, String.toList_append, String.toList_append, Nat.toList_repr, hmarker,
      List.append_assoc]
    rfl

theorem hash_not_mem_toDigits (n : Nat) : '#' ∉ Nat.toDigits 10 n := by
  intro hmem
  have hdigit := (isNumeral_toDigits n).2 _ hmem
  revert hdigit
  decide

theorem hash_not_mem_slotSuffix (slot : ConversionSlot) : '#' ∉ slotSuffix slot := by
  cases slot with
  | step idx =>
    intro hmem
    rcases List.mem_append.mp hmem with h | h
    · revert h
      decide
    · exact hash_not_mem_toDigits _ h
  | external handle =>
    intro hmem
    rcases List.mem_append.mp hmem with h | h
    · revert h
      decide
    · exact hash_not_mem_toDigits _ h

theorem toDigits_inj {m n : Nat} (h : Nat.toDigits 10 m = Nat.toDigits 10 n) : m = n := by
  rw [← Nat.ofDigitChars_ten_toDigits (n := m), h, Nat.ofDigitChars_ten_toDigits]

/-- The sixth letter tells the kinds of slot apart. -/
theorem conv_step_ne_conv_ext (u v : List Char) :
    "conv-step".toList ++ u ≠ "conv-ext".toList ++ v := by
  have hstep : "conv-step".toList = ['c', 'o', 'n', 'v', '-', 's', 't', 'e', 'p'] := by decide
  have hext : "conv-ext".toList = ['c', 'o', 'n', 'v', '-', 'e', 'x', 't'] := by decide
  rw [hstep, hext]
  simp

theorem slotSuffix_inj {slot slot' : ConversionSlot} (h : slotSuffix slot = slotSuffix slot') :
    slot = slot' := by
  cases slot with
  | step idx =>
    cases slot' with
    | step idx' => rw [toDigits_inj (List.append_cancel_left h)]
    | external handle' => exact absurd h (conv_step_ne_conv_ext _ _)
  | external handle =>
    cases slot' with
    | step idx' => exact absurd h.symm (conv_step_ne_conv_ext _ _)
    | external handle' =>
      have hid := UInt64.toNat_inj.mp (toDigits_inj (List.append_cancel_left h))
      obtain ⟨id⟩ := handle
      obtain ⟨id'⟩ := handle'
      exact congrArg (fun id => ConversionSlot.external ⟨id⟩) hid

/-- **A key names its owner and slot**: the last `#` ends the owner's name. -/
theorem intermediateKey_inj {owner owner' : String} {slot slot' : ConversionSlot}
    (h : intermediateKey owner slot = intermediateKey owner' slot') :
    owner = owner' ∧ slot = slot' := by
  have hlist := congrArg String.toList h
  rw [toList_intermediateKey, toList_intermediateKey] at hlist
  have hsplit := rsplitOnce_append_cons (c := '#') (w := []) List.not_mem_nil
    (hash_not_mem_slotSuffix slot) owner.toList
  have hsplit' := rsplitOnce_append_cons (c := '#') (w := []) List.not_mem_nil
    (hash_not_mem_slotSuffix slot') owner'.toList
  rw [List.cons_append, List.nil_append] at hsplit hsplit'
  rw [hlist, hsplit'] at hsplit
  obtain ⟨howner, hslot⟩ := Prod.mk.inj (Option.some.inj hsplit)
  exact ⟨String.toList_inj.mp howner.symm, slotSuffix_inj hslot.symm⟩

/-- A name of the form of an intermediate key. -/
def Synthetic (key : String) : Prop := ∃ owner slot, key = intermediateKey owner slot

theorem not_synthetic_of_hash_not_mem {key : String} (h : '#' ∉ key.toList) : ¬ Synthetic key := by
  rintro ⟨owner, slot, rfl⟩
  apply h
  rw [toList_intermediateKey]
  exact List.mem_append_right _ List.mem_cons_self

/-- The keys of an entity's family. -/
def InFamily (owner key : String) : Prop :=
  key = owner ∨ ∃ slot, key = intermediateKey owner slot

/-- Families of entities have no key in common. -/
theorem InFamily.disjoint {owner owner' key : String} (howner : ¬ Synthetic owner)
    (howner' : ¬ Synthetic owner') (hne : owner' ≠ owner) (h : InFamily owner' key) :
    ¬ InFamily owner key := by
  intro hother
  rcases h with rfl | ⟨slot, rfl⟩
  · rcases hother with rfl | ⟨slot', hkey⟩
    · exact hne rfl
    · exact howner' ⟨owner, slot', hkey⟩
  · rcases hother with rfl | ⟨slot', hkey⟩
    · exact howner ⟨owner', slot, rfl⟩
    · exact hne (intermediateKey_inj hkey).1

/-! ## Buckets after an operation -/

section Buckets

variable [DecidableEq H] {c : RealizationCache V H} {key key' : String}
  {reprKind reprKind' : ReprKind} {optionsHash optionsHash' : H} {tol : F64} {val : V}

@[simp] theorem bucketAt_new :
    (new : RealizationCache V H).bucketAt key reprKind optionsHash = .new := rfl

@[simp] theorem bucketAt_clear : c.clear.bucketAt key reprKind optionsHash = .new := rfl

theorem bucketAt_setBucket (b : ToleranceBucket V) :
    (c.setBucket key reprKind optionsHash b).bucketAt key' reprKind' optionsHash' =
      if (key', reprKind', optionsHash') = (key, reprKind, optionsHash) then b
      else c.bucketAt key' reprKind' optionsHash' := by
  unfold setBucket bucketAt
  dsimp only
  rw [HashMap.get_insert]
  by_cases hrepr : reprKind' = reprKind
  · rw [if_pos hrepr, Option.getD_some, HashMap.get_insert]
    by_cases hkey : key' = key
    · rw [if_pos hkey, Option.getD_some, HashMap.get_insert]
      by_cases hoptions : optionsHash' = optionsHash
      · rw [if_pos hoptions, if_pos (by rw [hrepr, hkey, hoptions]), Option.getD_some]
      · rw [if_neg hoptions, if_neg fun h => hoptions (Prod.mk.inj (Prod.mk.inj h).2).2, hrepr,
          hkey]
    · rw [if_neg hkey, if_neg fun h => hkey (Prod.mk.inj h).1, hrepr]
  · rw [if_neg hrepr, if_neg fun h => hrepr (Prod.mk.inj (Prod.mk.inj h).2).1]

theorem bucketAt_insert :
    (c.insert key reprKind tol optionsHash val).1.bucketAt key' reprKind' optionsHash' =
      if (key', reprKind', optionsHash') = (key, reprKind, optionsHash) then
        ((c.bucketAt key reprKind optionsHash).insert tol val).1
      else c.bucketAt key' reprKind' optionsHash' :=
  bucketAt_setBucket _

theorem bucketAt_removeExact :
    (c.removeExact key reprKind tol optionsHash).1.bucketAt key' reprKind' optionsHash' =
      if (key', reprKind', optionsHash') = (key, reprKind, optionsHash) then
        ((c.bucketAt key reprKind optionsHash).remove tol).1
      else c.bucketAt key' reprKind' optionsHash' := by
  unfold removeExact
  split
  · next hnone =>
    -- no bucket there reads as an empty one, and stays one
    have hempty : c.bucketAt key reprKind optionsHash = .new := by
      unfold bucketAt
      cases hrepr : c.buckets.get reprKind with
      | none => rfl
      | some inner =>
        rw [hrepr] at hnone
        rw [Option.getD_some]
        rw [Option.bind_some] at hnone
        cases hkey : inner.get key with
        | none => rfl
        | some byOptions =>
          rw [hkey, Option.bind_some] at hnone
          rw [Option.getD_some, hnone]
          rfl
    by_cases heq : (key', reprKind', optionsHash') = (key, reprKind, optionsHash)
    · rw [if_pos heq, hempty]
      obtain ⟨hkey, heq⟩ := Prod.mk.inj heq
      obtain ⟨hrepr, hoptions⟩ := Prod.mk.inj heq
      rw [hkey, hrepr, hoptions]
      exact hempty
    · rw [if_neg heq]
  · next b hb =>
    have hbucket : c.bucketAt key reprKind optionsHash = b := by
      obtain ⟨inner, hinner, hb⟩ := Option.bind_eq_some_iff.mp hb
      obtain ⟨byOptions, hbyOptions, hb⟩ := Option.bind_eq_some_iff.mp hb
      unfold bucketAt
      rw [hinner, Option.getD_some, hbyOptions, Option.getD_some, hb, Option.getD_some]
    rw [bucketAt_setBucket, hbucket]

theorem lookup_eq :
    c.lookup key reprKind tol optionsHash =
      (c.bucketAt key reprKind optionsHash).lookup tol := by
  unfold lookup bucketAt
  cases c.buckets.get reprKind with
  | none => rfl
  | some inner =>
    rw [Option.bind_some, Option.getD_some]
    cases inner.get key with
    | none => rfl
    | some byOptions =>
      rw [Option.bind_some, Option.getD_some]
      cases byOptions.get optionsHash with
      | none => rfl
      | some b => rfl

theorem holdsAnyEntry_iff : c.holdsAnyEntry key = true ↔
    ∃ reprKind optionsHash, (c.bucketAt key reprKind optionsHash).entries ≠ [] := by
  unfold holdsAnyEntry
  simp only [List.any_eq_true, List.mem_filterMap, Prod.exists, HashMap.mem_toList_iff,
    Bool.not_eq_true', List.isEmpty_eq_false_iff]
  constructor
  · rintro ⟨byOptions, ⟨reprKind, inner, hinner, hbyOptions⟩, optionsHash, b, hb, hentries⟩
    refine ⟨reprKind, optionsHash, ?_⟩
    unfold bucketAt
    rw [hinner, Option.getD_some, hbyOptions, Option.getD_some, hb]
    exact hentries
  · rintro ⟨reprKind, optionsHash, hentries⟩
    unfold bucketAt at hentries
    cases hinner : c.buckets.get reprKind with
    | none =>
      rw [hinner] at hentries
      exact absurd rfl hentries
    | some inner =>
      rw [hinner, Option.getD_some] at hentries
      cases hbyOptions : inner.get key with
      | none =>
        rw [hbyOptions] at hentries
        exact absurd rfl hentries
      | some byOptions =>
        rw [hbyOptions, Option.getD_some] at hentries
        cases hb : byOptions.get optionsHash with
        | none =>
          rw [hb] at hentries
          exact absurd rfl hentries
        | some b =>
          rw [hb] at hentries
          exact ⟨byOptions, ⟨reprKind, inner, hinner, hbyOptions⟩, optionsHash, b, hb, hentries⟩

/-- Whether a key holds an entry follows from its buckets. -/
theorem holdsAnyEntry_congr {c' : RealizationCache V H}
    (h : ∀ reprKind optionsHash,
      c'.bucketAt key reprKind optionsHash = c.bucketAt key reprKind optionsHash) :
    c'.holdsAnyEntry key = true ↔ c.holdsAnyEntry key = true := by
  rw [holdsAnyEntry_iff, holdsAnyEntry_iff]
  simp only [h]

omit [DecidableEq H] in
/-- The owner's list has the key. -/
def Lists (c : RealizationCache V H) (owner key : String) : Prop :=
  ∃ keys, c.intermediatesByOwner.get owner = some keys ∧ key ∈ keys

omit [DecidableEq H] in
theorem mem_getD_iff {owner : String} :
    key ∈ ((c.intermediatesByOwner.get owner).getD ∅).toList ↔ c.Lists owner key := by
  unfold Lists
  cases c.intermediatesByOwner.get owner with
  | none => simp
  | some keys => simp

/-- An eviction empties the entity's own buckets and those listed under it. -/
theorem bucketAt_evictFamily_of_evicted {entity : String} (h : key = entity ∨ c.Lists entity key) :
    (c.evictFamily entity).bucketAt key reprKind optionsHash = .new := by
  unfold evictFamily bucketAt
  dsimp only
  rw [HashMap.get_mapValues]
  cases c.buckets.get reprKind with
  | none => rfl
  | some inner =>
    rw [Option.map_some, Option.getD_some, HashMap.get_removeAll, HashMap.get_remove]
    rcases h with rfl | h
    · rw [if_pos rfl, ite_self]
      rfl
    · rw [if_pos (mem_getD_iff.mpr h)]
      rfl

/-- An eviction leaves the other buckets alone. -/
theorem bucketAt_evictFamily_of_kept {entity : String} (hne : key ≠ entity)
    (h : ¬ c.Lists entity key) :
    (c.evictFamily entity).bucketAt key reprKind optionsHash =
      c.bucketAt key reprKind optionsHash := by
  unfold evictFamily bucketAt
  dsimp only
  rw [HashMap.get_mapValues]
  cases c.buckets.get reprKind with
  | none => rfl
  | some inner =>
    rw [Option.map_some, Option.getD_some, Option.getD_some, HashMap.get_removeAll,
      if_neg (mt mem_getD_iff.mp h), HashMap.get_remove_of_ne _ hne]

theorem bucketAt_unlist (owner : String) :
    (c.unlist owner key').bucketAt key reprKind optionsHash =
      c.bucketAt key reprKind optionsHash := by
  unfold unlist
  split
  · rfl
  · split
    · rfl
    · rfl

omit [DecidableEq H] in
theorem lists_unlist {owner owner' : String} :
    (c.unlist owner key).Lists owner' key' ↔
      c.Lists owner' key' ∧ ¬ (owner' = owner ∧ key' = key) := by
  unfold unlist
  split
  · next hnone =>
    refine ⟨fun h => ⟨h, ?_⟩, And.left⟩
    rintro ⟨rfl, rfl⟩
    obtain ⟨keys, hkeys, -⟩ := h
    rw [hnone] at hkeys
    cases hkeys
  · next keys hkeys =>
    unfold Lists
    split
    · next hempty =>
      dsimp only
      rw [HashMap.get_remove]
      by_cases howner : owner' = owner
      · -- the key was the only one listed
        rw [if_pos howner, howner, hkeys]
        constructor
        · rintro ⟨keys', heq, -⟩
          cases heq
        · rintro ⟨⟨keys', heq, hmem⟩, hne⟩
          obtain rfl := Option.some.inj heq
          have hremoved : key' ∈ keys.remove key :=
            HashSet.mem_remove.mpr ⟨fun h => hne ⟨rfl, h⟩, hmem⟩
          rw [HashSet.mem_iff, List.isEmpty_iff.mp hempty] at hremoved
          cases hremoved
      · rw [if_neg howner]
        exact ⟨fun h => ⟨h, fun heq => howner heq.1⟩, And.left⟩
    · dsimp only
      rw [HashMap.get_insert]
      by_cases howner : owner' = owner
      · rw [if_pos howner, howner, hkeys]
        constructor
        · rintro ⟨keys', heq, hmem⟩
          obtain rfl := Option.some.inj heq
          obtain ⟨hne, hmem⟩ := HashSet.mem_remove.mp hmem
          exact ⟨⟨keys, rfl, hmem⟩, fun h => hne h.2⟩
        · rintro ⟨⟨keys', heq, hmem⟩, hne⟩
          obtain rfl := Option.some.inj heq
          exact ⟨_, rfl, HashSet.mem_remove.mpr ⟨fun h => hne ⟨rfl, h⟩, hmem⟩⟩
      · rw [if_neg howner]
        exact ⟨fun h => ⟨h, fun heq => howner heq.1⟩, And.left⟩

end Buckets

/-! ## The invariant -/

section Sound

variable [DecidableEq H] {c c' : RealizationCache V H}

/-- Every bucket is well formed; an owner's list has the keys of its intermediates
that hold an entry, and there are no empty lists. -/
structure Sound (c : RealizationCache V H) : Prop where
  wellFormed : ∀ key reprKind optionsHash, (c.bucketAt key reprKind optionsHash).WellFormed
  lists_iff : ∀ owner key, c.Lists owner key ↔
    (∃ slot, key = intermediateKey owner slot) ∧ c.holdsAnyEntry key = true
  nonempty : ∀ owner keys, c.intermediatesByOwner.get owner = some keys → ∃ key, key ∈ keys

theorem sound_new : (new : RealizationCache V H).Sound := by
  refine ⟨fun _ _ _ => ToleranceBucket.wellFormed_new, fun owner key => ?_, fun owner keys h => ?_⟩
  · constructor
    · rintro ⟨keys, hkeys, -⟩
      cases hkeys
    · rintro ⟨-, hholds⟩
      cases hholds
  · cases h

/-- A change of well-formed buckets under names that are no intermediate's. -/
theorem Sound.of_terminal (h : c.Sound) {entity : String} (hentity : ¬ Synthetic entity)
    (hindex : c'.intermediatesByOwner = c.intermediatesByOwner)
    (hwellFormed : ∀ key reprKind optionsHash,
      (c'.bucketAt key reprKind optionsHash).WellFormed)
    (hother : ∀ key reprKind optionsHash, key ≠ entity →
      c'.bucketAt key reprKind optionsHash = c.bucketAt key reprKind optionsHash) : c'.Sound := by
  refine ⟨hwellFormed, fun owner key => ?_, fun owner keys hkeys => ?_⟩
  · have hlists : c'.Lists owner key ↔ c.Lists owner key := by
      unfold Lists
      rw [hindex]
    rw [hlists, h.lists_iff]
    refine and_congr_right fun ⟨slot, hkey⟩ => (holdsAnyEntry_congr fun reprKind optionsHash => ?_).symm
    refine hother key reprKind optionsHash ?_
    rintro rfl
    exact hentity ⟨owner, slot, hkey⟩
  · rw [hindex] at hkeys
    exact h.nonempty owner keys hkeys

variable {tol : F64} (htol : isValidToleranceSi tol = true)
include htol

theorem Sound.wellFormed_insert (h : c.Sound) (entity : String) (reprKind : ReprKind)
    (optionsHash : H) (val : V) (key : String) (reprKind' : ReprKind) (optionsHash' : H) :
    ((c.insert entity reprKind tol optionsHash val).1.bucketAt key reprKind'
      optionsHash').WellFormed := by
  rw [bucketAt_insert]
  split
  · exact (h.wellFormed _ _ _).insert htol val
  · exact h.wellFormed _ _ _

theorem Sound.insert (h : c.Sound) {entity : String} (hentity : ¬ Synthetic entity)
    (reprKind : ReprKind) (optionsHash : H) (val : V) :
    (c.insert entity reprKind tol optionsHash val).1.Sound := by
  refine h.of_terminal hentity rfl (h.wellFormed_insert htol _ _ _ _) ?_
  intro key reprKind' optionsHash' hne
  rw [bucketAt_insert, if_neg fun heq => hne (Prod.mk.inj heq).1]

theorem Sound.insertTerminal (h : c.Sound) {entity : String} (hentity : ¬ Synthetic entity)
    (reprKind : ReprKind) (optionsHash : H) (val : V) :
    (c.insertTerminal entity reprKind tol optionsHash val).1.Sound := by
  unfold RealizationCache.insertTerminal
  dsimp only
  have hinsert := h.insert htol hentity reprKind optionsHash val
  split
  · -- the counter is no part of the invariant
    exact ⟨hinsert.wellFormed, hinsert.lists_iff, hinsert.nonempty⟩
  · exact hinsert

theorem Sound.insertIntermediate (h : c.Sound) (owner : String) (slot : ConversionSlot)
    (reprKind : ReprKind) (optionsHash : H) (val : V) :
    (c.insertIntermediate owner slot reprKind tol optionsHash val).1.Sound := by
  have hbucket (key : String) (reprKind' : ReprKind) (optionsHash' : H) :
      (c.insertIntermediate owner slot reprKind tol optionsHash val).1.bucketAt key reprKind'
        optionsHash' = (c.insert (intermediateKey owner slot) reprKind tol optionsHash
          val).1.bucketAt key reprKind' optionsHash' := rfl
  refine ⟨fun key reprKind' optionsHash' => ?_, fun owner' key => ?_, fun owner' keys hkeys => ?_⟩
  · rw [hbucket]
    exact h.wellFormed_insert htol _ _ _ _ _ _ _
  · have hlists : (c.insertIntermediate owner slot reprKind tol optionsHash val).1.Lists owner' key ↔
        owner' = owner ∧ key = intermediateKey owner slot ∨ c.Lists owner' key := by
      unfold RealizationCache.insertIntermediate Lists
      dsimp only
      rw [HashMap.get_insert]
      by_cases howner : owner' = owner
      · subst howner
        simp only [if_pos, Option.some.injEq, exists_eq_left', HashSet.mem_insert, true_and]
        exact or_congr_right mem_getD_iff
      · rw [if_neg howner]
        exact (or_iff_right fun heq => howner heq.1).symm
    rw [hlists]
    by_cases hkey : key = intermediateKey owner slot
    · -- the key holds an entry now, and stands in its owner's list alone
      subst hkey
      have hholds : (c.insertIntermediate owner slot reprKind tol optionsHash
          val).1.holdsAnyEntry (intermediateKey owner slot) = true := by
        refine holdsAnyEntry_iff.mpr ⟨reprKind, optionsHash, ?_⟩
        rw [hbucket, bucketAt_insert, if_pos rfl]
        exact ToleranceBucket.entries_insert_ne_nil (h.wellFormed _ _ _) htol
      rw [hholds]
      constructor
      · rintro (⟨rfl, -⟩ | hlisted)
        · exact ⟨⟨slot, rfl⟩, rfl⟩
        · exact ⟨((h.lists_iff _ _).mp hlisted).1, rfl⟩
      · rintro ⟨⟨slot', heq⟩, -⟩
        exact Or.inl ⟨(intermediateKey_inj heq).1.symm, rfl⟩
    · rw [or_iff_right fun heq => hkey heq.2, h.lists_iff]
      refine and_congr_right fun _ => (holdsAnyEntry_congr fun reprKind' optionsHash' => ?_).symm
      rw [hbucket, bucketAt_insert, if_neg fun heq => hkey (Prod.mk.inj heq).1]
  · have hget : ((c.intermediatesByOwner.insert owner (((c.intermediatesByOwner.get owner).getD
        ∅).insert (intermediateKey owner slot))).get owner') = some keys := hkeys
    rw [HashMap.get_insert] at hget
    split at hget
    · obtain rfl := Option.some.inj hget
      exact ⟨_, HashSet.mem_insert.mpr (Or.inl rfl)⟩
    · exact h.nonempty owner' keys hget

omit htol

theorem Sound.wellFormed_removeExact (h : c.Sound) (tol : F64) (entity : String)
    (reprKind : ReprKind) (optionsHash : H) (key : String) (reprKind' : ReprKind)
    (optionsHash' : H) :
    ((c.removeExact entity reprKind tol optionsHash).1.bucketAt key reprKind'
      optionsHash').WellFormed := by
  rw [bucketAt_removeExact]
  split
  · exact (h.wellFormed _ _ _).remove tol
  · exact h.wellFormed _ _ _

/-- A removal does not touch the index. -/
theorem intermediatesByOwner_removeExact (key : String) (reprKind : ReprKind) (tol : F64)
    (optionsHash : H) :
    (c.removeExact key reprKind tol optionsHash).1.intermediatesByOwner =
      c.intermediatesByOwner := by
  unfold removeExact
  split
  · rfl
  · rfl

theorem Sound.remove (h : c.Sound) {entity : String} (hentity : ¬ Synthetic entity)
    (reprKind : ReprKind) (tol : F64) (optionsHash : H) :
    (c.remove entity reprKind tol optionsHash).1.Sound := by
  refine h.of_terminal hentity (intermediatesByOwner_removeExact _ _ _ _)
    (h.wellFormed_removeExact tol _ _ _) ?_
  intro key reprKind' optionsHash' hne
  exact bucketAt_removeExact.trans (if_neg fun heq => hne (Prod.mk.inj heq).1)

/-- A removal gives no key an entry. -/
theorem holdsAnyEntry_of_removeExact {key key' : String} {reprKind : ReprKind} {tol : F64}
    {optionsHash : H}
    (h : (c.removeExact key reprKind tol optionsHash).1.holdsAnyEntry key' = true) :
    c.holdsAnyEntry key' = true := by
  obtain ⟨reprKind', optionsHash', hne⟩ := holdsAnyEntry_iff.mp h
  refine holdsAnyEntry_iff.mpr ⟨reprKind', optionsHash', ?_⟩
  obtain ⟨e, he⟩ := List.exists_mem_of_ne_nil _ hne
  rw [bucketAt_removeExact] at he
  split at he
  · next heq =>
    obtain ⟨hkey, heq⟩ := Prod.mk.inj heq
    obtain ⟨hrepr, hoptions⟩ := Prod.mk.inj heq
    rw [hkey, hrepr, hoptions]
    exact List.ne_nil_of_mem (ToleranceBucket.mem_of_mem_remove he)
  · exact List.ne_nil_of_mem he

theorem Sound.removeIntermediate (h : c.Sound) (owner : String) (slot : ConversionSlot)
    (reprKind : ReprKind) (tol : F64) (optionsHash : H) :
    (c.removeIntermediate owner slot reprKind tol optionsHash).1.Sound := by
  have hindex := intermediatesByOwner_removeExact (c := c) (intermediateKey owner slot) reprKind
    tol optionsHash
  have hlists (owner' key : String) : (c.removeExact (intermediateKey owner slot) reprKind tol
      optionsHash).1.Lists owner' key ↔ c.Lists owner' key := by
    unfold Lists
    rw [hindex]
  -- the keys of the other intermediates hold what they held
  have hother {key : String} (hkey : key ≠ intermediateKey owner slot) :
      (c.removeExact (intermediateKey owner slot) reprKind tol optionsHash).1.holdsAnyEntry key =
        true ↔ c.holdsAnyEntry key = true := by
    refine holdsAnyEntry_congr fun reprKind' optionsHash' => ?_
    rw [bucketAt_removeExact, if_neg fun heq => hkey (Prod.mk.inj heq).1]
  unfold RealizationCache.removeIntermediate
  dsimp only
  split
  · next hholds =>
    refine ⟨h.wellFormed_removeExact tol _ _ _, fun owner' key => ?_, fun owner' keys hkeys => ?_⟩
    · rw [hlists, h.lists_iff]
      by_cases hkey : key = intermediateKey owner slot
      · rw [hkey, hholds, holdsAnyEntry_of_removeExact hholds]
      · rw [hother hkey]
    · rw [hindex] at hkeys
      exact h.nonempty owner' keys hkeys
  · next hholds =>
    refine ⟨fun key reprKind' optionsHash' => ?_, fun owner' key => ?_, fun owner' keys hkeys => ?_⟩
    · rw [bucketAt_unlist]
      exact h.wellFormed_removeExact tol _ _ _ _ _ _
    · dsimp only
      rw [lists_unlist, hlists, h.lists_iff,
        holdsAnyEntry_congr (fun reprKind' optionsHash' => bucketAt_unlist owner)]
      by_cases hkey : key = intermediateKey owner slot
      · rw [hkey]
        constructor
        · rintro ⟨⟨⟨slot', heq⟩, -⟩, hne⟩
          exact absurd ⟨(intermediateKey_inj heq).1.symm, rfl⟩ hne
        · exact fun hand => absurd hand.2 hholds
      · rw [hother hkey]
        exact ⟨And.left, fun hand => ⟨hand, fun heq => hkey heq.2⟩⟩
    · unfold unlist at hkeys
      split at hkeys
      · rw [hindex] at hkeys
        exact h.nonempty owner' keys hkeys
      · split at hkeys
        · dsimp only at hkeys
          rw [HashMap.get_remove] at hkeys
          split at hkeys
          · cases hkeys
          · rw [hindex] at hkeys
            exact h.nonempty owner' keys hkeys
        · next hremaining =>
          dsimp only at hkeys
          rw [HashMap.get_insert] at hkeys
          split at hkeys
          · obtain rfl := Option.some.inj hkeys
            exact List.exists_mem_of_ne_nil _ (mt List.isEmpty_iff.mpr hremaining)
          · rw [hindex] at hkeys
            exact h.nonempty owner' keys hkeys

/-- What an eviction keeps, in terms of the family alone. -/
theorem Sound.bucketAt_evictFamily (h : c.Sound) {entity key : String} (reprKind : ReprKind)
    (optionsHash : H) (hkey : ¬ InFamily entity key) :
    (c.evictFamily entity).bucketAt key reprKind optionsHash =
      c.bucketAt key reprKind optionsHash := by
  refine bucketAt_evictFamily_of_kept (fun heq => hkey (Or.inl heq)) fun hlisted => ?_
  exact hkey (Or.inr ((h.lists_iff _ _).mp hlisted).1)

/-- **An eviction empties the family**: an intermediate that is not listed has no
entry to lose. -/
theorem Sound.entries_evictFamily (h : c.Sound) {entity key : String} (reprKind : ReprKind)
    (optionsHash : H) (hkey : InFamily entity key) :
    ((c.evictFamily entity).bucketAt key reprKind optionsHash).entries = [] := by
  by_cases hevicted : key = entity ∨ c.Lists entity key
  · rw [bucketAt_evictFamily_of_evicted hevicted]
    rfl
  · obtain ⟨hne, hlisted⟩ := not_or.mp hevicted
    rw [bucketAt_evictFamily_of_kept hne hlisted]
    by_contra hentries
    have hslot := hkey.resolve_left hne
    exact hlisted ((h.lists_iff _ _).mpr
      ⟨hslot, holdsAnyEntry_iff.mpr ⟨reprKind, optionsHash, hentries⟩⟩)

theorem Sound.evictFamily (h : c.Sound) {entity : String} (hentity : ¬ Synthetic entity) :
    (c.evictFamily entity).Sound := by
  refine ⟨fun key reprKind optionsHash => ?_, fun owner key => ?_, fun owner keys hkeys => ?_⟩
  · by_cases hevicted : key = entity ∨ c.Lists entity key
    · rw [bucketAt_evictFamily_of_evicted hevicted]
      exact ToleranceBucket.wellFormed_new
    · obtain ⟨hne, hlisted⟩ := not_or.mp hevicted
      rw [bucketAt_evictFamily_of_kept hne hlisted]
      exact h.wellFormed _ _ _
  · have hlists : (c.evictFamily entity).Lists owner key ↔ owner ≠ entity ∧ c.Lists owner key := by
      unfold RealizationCache.evictFamily Lists
      dsimp only
      rw [HashMap.get_remove]
      by_cases howner : owner = entity
      · rw [if_pos howner]
        constructor
        · rintro ⟨keys, hkeys, -⟩
          cases hkeys
        · intro hand
          exact absurd howner hand.1
      · rw [if_neg howner]
        exact (and_iff_right howner).symm
    rw [hlists, h.lists_iff]
    by_cases howner : owner = entity
    · -- the evicted owner has no list, and its keys hold nothing
      refine ⟨fun hand => absurd howner hand.1, fun ⟨hslot, hholds⟩ => ?_⟩
      obtain ⟨reprKind, optionsHash, hne⟩ := holdsAnyEntry_iff.mp hholds
      rw [howner] at hslot
      exact absurd (h.entries_evictFamily reprKind optionsHash (Or.inr hslot)) hne
    · rw [and_iff_right howner]
      refine and_congr_right fun ⟨slot, hkey⟩ => (holdsAnyEntry_congr fun reprKind optionsHash => ?_).symm
      apply h.bucketAt_evictFamily
      rintro (rfl | ⟨slot', heq⟩)
      · exact hentity ⟨owner, slot, hkey⟩
      · rw [hkey] at heq
        exact howner (intermediateKey_inj heq).1
  · have hget : (c.intermediatesByOwner.remove entity).get owner = some keys := hkeys
    rw [HashMap.get_remove] at hget
    split at hget
    · cases hget
    · exact h.nonempty owner keys hget

theorem Sound.clear (c : RealizationCache V H) : c.clear.Sound := by
  have hnew : (new : RealizationCache V H).Sound := sound_new
  exact ⟨hnew.wellFormed, hnew.lists_iff, hnew.nonempty⟩

end Sound

end RealizationCache

/-! ## Steps and runs -/

open RealizationCache in
/-- The tolerance is valid, and a name given for an entity is no intermediate's. -/
def RealizationOp.Valid : RealizationOp V H → Prop
  | .insert entity _ tol _ _ => isValidToleranceSi tol = true ∧ ¬ Synthetic entity
  | .insertTerminal entity _ tol _ _ => isValidToleranceSi tol = true ∧ ¬ Synthetic entity
  | .insertIntermediate _ _ _ tol _ _ => isValidToleranceSi tol = true
  | .remove entity _ tol _ => isValidToleranceSi tol = true ∧ ¬ Synthetic entity
  | .removeIntermediate _ _ _ tol _ => isValidToleranceSi tol = true
  | .evictFamily entity => ¬ Synthetic entity
  | .clear => True

open RealizationCache in
/-- A removal at the key that reaches the tolerance or a tighter one, an eviction of
the key's family, or a flush. -/
def RealizationOp.Drops (key : String) (reprKind : ReprKind) (optionsHash : H) (tol : F64) :
    RealizationOp V H → Prop
  | .remove entity reprKind' tol' optionsHash' =>
    (entity, reprKind', optionsHash') = (key, reprKind, optionsHash) ∧ tol'.le tol = true
  | .removeIntermediate owner slot reprKind' tol' optionsHash' =>
    (intermediateKey owner slot, reprKind', optionsHash') = (key, reprKind, optionsHash) ∧
      tol'.le tol = true
  | .evictFamily entity => InFamily entity key
  | .clear => True
  | _ => False

namespace RealizationCache

variable [DecidableEq H] {c : RealizationCache V H} {key : String} {reprKind : ReprKind}
  {optionsHash : H} {tol tol' : F64}

/-- **One step**: every operation keeps the invariant. -/
theorem Sound.apply (h : c.Sound) {op : RealizationOp V H} (hop : op.Valid) :
    (c.apply op).Sound := by
  cases op with
  | insert => exact h.insert hop.1 hop.2 _ _ _
  | insertTerminal => exact h.insertTerminal hop.1 hop.2 _ _ _
  | insertIntermediate => exact h.insertIntermediate hop _ _ _ _ _
  | remove => exact h.remove hop.2 _ _ _
  | removeIntermediate => exact h.removeIntermediate _ _ _ _ _
  | evictFamily => exact h.evictFamily hop
  | clear => exact Sound.clear c

theorem run_append (before after : List (RealizationOp V H)) :
    run (before ++ after) = after.foldl RealizationCache.apply (run before) :=
  List.foldl_append

/-- The invariant holds over runs. -/
theorem sound_run {ops : List (RealizationOp V H)} (hvalid : ∀ op ∈ ops, op.Valid) :
    (run ops).Sound := by
  induction ops using List.reverseRecOn with
  | nil => exact sound_new
  | append_singleton ops op ih =>
    rw [run_append]
    have hbefore := ih fun op' hop' => hvalid op' (List.mem_append_left _ hop')
    exact hbefore.apply (hvalid op (List.mem_append_right _ List.mem_cons_self))

theorem Sound.covers_insert (h : c.Sound) (htol : isValidToleranceSi tol = true)
    (htol' : isValidToleranceSi tol' = true) (key' : String) (reprKind' : ReprKind)
    (optionsHash' : H) (val : V) (hcovers : (c.bucketAt key reprKind optionsHash).Covers tol) :
    ((c.insert key' reprKind' tol' optionsHash' val).1.bucketAt key reprKind
      optionsHash).Covers tol := by
  rw [bucketAt_insert]
  split
  · next heq =>
    simp only [Prod.mk.injEq] at heq
    obtain ⟨rfl, rfl, rfl⟩ := heq
    exact ToleranceBucket.covers_insert (h.wellFormed _ _ _) htol'
      (isFinite_of_isValidToleranceSi htol) hcovers
  · exact hcovers

theorem Sound.covers_removeExact (h : c.Sound) (htol : isValidToleranceSi tol = true)
    (htol' : isValidToleranceSi tol' = true) {key' : String} {reprKind' : ReprKind}
    {optionsHash' : H}
    (hdrop : ¬ ((key', reprKind', optionsHash') = (key, reprKind, optionsHash) ∧
      tol'.le tol = true)) (hcovers : (c.bucketAt key reprKind optionsHash).Covers tol) :
    ((c.removeExact key' reprKind' tol' optionsHash').1.bucketAt key reprKind
      optionsHash).Covers tol := by
  have hfinite := isFinite_of_isValidToleranceSi htol
  have hfinite' := isFinite_of_isValidToleranceSi htol'
  rw [bucketAt_removeExact]
  split
  · next heq =>
    have hlooser : ¬ tol'.le tol = true := fun hle => hdrop ⟨heq.symm, hle⟩
    rw [F64.le_iff hfinite' hfinite] at hlooser
    simp only [Prod.mk.injEq] at heq
    obtain ⟨rfl, rfl, rfl⟩ := heq
    exact ToleranceBucket.covers_remove (h.wellFormed _ _ _) htol' hfinite
      ((F64.lt_iff hfinite hfinite').mpr (Int.not_le.mp hlooser)) hcovers
  · exact hcovers

/-- **One step keeps a hit**, unless it removes at the key, evicts its family or
flushes the cache. -/
theorem Sound.covers_apply (h : c.Sound) (htol : isValidToleranceSi tol = true)
    {op : RealizationOp V H} (hop : op.Valid) (hdrop : ¬ op.Drops key reprKind optionsHash tol)
    (hcovers : (c.bucketAt key reprKind optionsHash).Covers tol) :
    ((c.apply op).bucketAt key reprKind optionsHash).Covers tol := by
  cases op with
  | insert => exact h.covers_insert htol hop.1 _ _ _ _ hcovers
  | insertTerminal entity reprKind' tol' optionsHash' val =>
    have hinsert := h.covers_insert htol hop.1 entity reprKind' optionsHash' val hcovers
    simp only [RealizationCache.apply, RealizationCache.insertTerminal]
    split
    · exact hinsert
    · exact hinsert
  | insertIntermediate => exact h.covers_insert htol hop _ _ _ _ hcovers
  | remove => exact h.covers_removeExact htol hop.1 hdrop hcovers
  | removeIntermediate owner slot reprKind' tol' optionsHash' =>
    have hremove := h.covers_removeExact htol hop hdrop hcovers
    simp only [RealizationCache.apply, RealizationCache.removeIntermediate]
    split
    · exact hremove
    · rw [bucketAt_unlist]
      exact hremove
  | evictFamily entity =>
    unfold RealizationCache.apply
    rw [h.bucketAt_evictFamily reprKind optionsHash hdrop]
    exact hcovers
  | clear => exact absurd trivial hdrop

/-- An accepted insertion leaves a hit at its key and tolerance. -/
theorem Sound.covers_of_acceptsAt (h : c.Sound) {op : RealizationOp V H} (hop : op.Valid)
    (haccepts : c.AcceptsAt key reprKind optionsHash tol op) :
    isValidToleranceSi tol = true ∧
      ((c.apply op).bucketAt key reprKind optionsHash).Covers tol := by
  have hinsert (hvalid : isValidToleranceSi tol = true) (val : V) :
      ((c.insert key reprKind tol optionsHash val).1.bucketAt key reprKind
        optionsHash).Covers tol := by
    have hfinite := isFinite_of_isValidToleranceSi hvalid
    rw [bucketAt_insert, if_pos rfl]
    exact ToleranceBucket.covers_insert_self (h.wellFormed _ _ _) hvalid hfinite
      ((F64.le_iff hfinite hfinite).mpr le_rfl)
  cases op with
  | insert entity reprKind' tol' optionsHash' val =>
    obtain ⟨heq, -⟩ := haccepts
    simp only [Prod.mk.injEq] at heq
    obtain ⟨rfl, rfl, rfl, rfl⟩ := heq
    exact ⟨hop.1, hinsert hop.1 val⟩
  | insertTerminal entity reprKind' tol' optionsHash' val =>
    obtain ⟨heq, -⟩ := haccepts
    simp only [Prod.mk.injEq] at heq
    obtain ⟨rfl, rfl, rfl, rfl⟩ := heq
    refine ⟨hop.1, ?_⟩
    simp only [RealizationCache.apply, RealizationCache.insertTerminal]
    split
    · exact hinsert hop.1 val
    · exact hinsert hop.1 val
  | insertIntermediate owner slot reprKind' tol' optionsHash' val =>
    obtain ⟨heq, -⟩ := haccepts
    simp only [Prod.mk.injEq] at heq
    obtain ⟨rfl, rfl, rfl, rfl⟩ := heq
    exact ⟨hop, hinsert hop val⟩
  | remove | removeIntermediate | evictFamily | clear => exact absurd haccepts id

/-- A run of such steps keeps a hit. -/
theorem Sound.covers_foldl (h : c.Sound) (htol : isValidToleranceSi tol = true)
    {ops : List (RealizationOp V H)} (hvalid : ∀ op ∈ ops, op.Valid)
    (hkeep : ∀ op ∈ ops, ¬ op.Drops key reprKind optionsHash tol)
    (hcovers : (c.bucketAt key reprKind optionsHash).Covers tol) :
    ((ops.foldl RealizationCache.apply c).bucketAt key reprKind optionsHash).Covers tol := by
  induction ops generalizing c with
  | nil => exact hcovers
  | cons op ops ih =>
    have hop := hvalid op List.mem_cons_self
    refine ih (h.apply hop) (fun op' hop' => hvalid op' (List.mem_cons_of_mem _ hop'))
      (fun op' hop' => hkeep op' (List.mem_cons_of_mem _ hop')) ?_
    exact h.covers_apply htol hop (hkeep op List.mem_cons_self) hcovers

/-- One step counts an accepted `insertTerminal` and nothing else. -/
theorem terminalEntries_apply (c : RealizationCache V H) (op : RealizationOp V H) :
    (c.apply op).terminalEntries =
      c.terminalEntries + if c.acceptsTerminal op then 1 else 0 := by
  have hremove (c : RealizationCache V H) (key reprKind tol) (optionsHash : H) :
      (c.removeExact key reprKind tol optionsHash).1.terminalEntries = c.terminalEntries := by
    unfold removeExact
    split
    · rfl
    · rfl
  cases op with
  | insertTerminal entity reprKind tol optionsHash val =>
    simp only [RealizationCache.apply, acceptsTerminal, RealizationCache.insertTerminal]
    by_cases haccepted : (c.insert entity reprKind tol optionsHash val).2 = true
    · simp only [if_pos haccepted]
      rfl
    · simp only [if_neg haccepted]
      rfl
  | insert | insertIntermediate | evictFamily | clear => rfl
  | remove => exact hremove _ _ _ _ _
  | removeIntermediate owner slot reprKind tol optionsHash =>
    simp only [RealizationCache.apply, RealizationCache.removeIntermediate]
    split
    · exact hremove _ _ _ _ _
    · unfold unlist
      split
      · exact hremove _ _ _ _ _
      · split
        · exact hremove _ _ _ _ _
        · exact hremove _ _ _ _ _

theorem terminalEntries_foldl (c : RealizationCache V H) (ops : List (RealizationOp V H)) :
    (ops.foldl RealizationCache.apply c).terminalEntries =
      c.terminalEntries + c.acceptedTerminals ops := by
  induction ops generalizing c with
  | nil => rfl
  | cons op ops ih =>
    rw [List.foldl_cons, ih, terminalEntries_apply, acceptedTerminals, Nat.add_assoc]

/-- **Whole runs**: buckets are well formed and a lookup returns the loosest entry
that serves; an accepted insertion is hit until a removal at its key or an eviction
of its family; the index lists the keys of the intermediates that hold an entry; an
eviction empties one family and leaves the others alone; and the counter counts the
accepted `insertTerminal` calls. -/
theorem families_run (ops : List (RealizationOp V H)) (hvalid : ∀ op ∈ ops, op.Valid) :
    (∀ key reprKind optionsHash, ((run ops).bucketAt key reprKind optionsHash).WellFormed) ∧
    (∀ key reprKind optionsHash t val, (run ops).lookup key reprKind t optionsHash = some val ↔
      ∃ e ∈ ((run ops).bucketAt key reprKind optionsHash).entries, e.2 = val ∧ e.1.le t = true ∧
        ∀ e' ∈ ((run ops).bucketAt key reprKind optionsHash).entries,
          e'.1.le t = true → e'.1.le e.1 = true) ∧
    (∀ before op after key reprKind optionsHash tol t, ops = before ++ op :: after →
      (run before).AcceptsAt key reprKind optionsHash tol op →
      (∀ op' ∈ after, ¬ op'.Drops key reprKind optionsHash tol) →
      isValidToleranceSi t = true → tol.le t = true →
        ((run ops).lookup key reprKind t optionsHash).isSome = true) ∧
    (∀ owner key, (run ops).Lists owner key ↔
      (∃ slot, key = intermediateKey owner slot) ∧ (run ops).holdsAnyEntry key = true) ∧
    (∀ owner, ¬ Synthetic owner →
      (∀ key, InFamily owner key → ∀ reprKind optionsHash,
        (((run ops).evictFamily owner).bucketAt key reprKind optionsHash).entries = []) ∧
      (∀ key, ¬ InFamily owner key → ∀ reprKind optionsHash,
        ((run ops).evictFamily owner).bucketAt key reprKind optionsHash =
          (run ops).bucketAt key reprKind optionsHash) ∧
      ∀ owner', ¬ Synthetic owner' → owner' ≠ owner → ∀ key, InFamily owner' key →
        ¬ InFamily owner key) ∧
    (run ops).terminalEntries = (new : RealizationCache V H).acceptedTerminals ops := by
  have hsound := sound_run hvalid
  refine ⟨hsound.wellFormed, ?_, ?_, hsound.lists_iff, ?_, ?_⟩
  · intro key reprKind optionsHash t val
    rw [lookup_eq]
    exact ToleranceBucket.lookup_eq_some_iff (hsound.wellFormed _ _ _)
  · intro before op after key reprKind optionsHash tol t hops haccepts hkeep ht hle
    subst hops
    have hbefore : (run before).Sound := sound_run fun op' hop' =>
      hvalid op' (List.mem_append_left _ hop')
    have hop : op.Valid := hvalid op (List.mem_append_right _ List.mem_cons_self)
    have hafter : ∀ op' ∈ after, op'.Valid := fun op' hop' =>
      hvalid op' (List.mem_append_right _ (List.mem_cons_of_mem _ hop'))
    obtain ⟨htol, hcovers⟩ := hbefore.covers_of_acceptsAt hop haccepts
    -- an entry that serves `tol` is there after `op`, and some entry is to the end
    obtain ⟨e, he, hetol⟩ := (hbefore.apply hop).covers_foldl htol hafter hkeep hcovers
    rw [← List.foldl_cons, ← run_append] at he
    have hfinite := isFinite_of_isValidToleranceSi htol
    have htfinite := isFinite_of_isValidToleranceSi ht
    have hefinite := isFinite_of_isValidToleranceSi ((hsound.wellFormed _ _ _).valid e he)
    rw [F64.le_iff hfinite htfinite] at hle
    rw [F64.le_iff hefinite hfinite] at hetol
    rw [lookup_eq]
    exact ToleranceBucket.isSome_lookup_iff.mpr
      ⟨e, he, (F64.le_iff hefinite htfinite).mpr (hetol.trans hle)⟩
  · intro owner howner
    refine ⟨fun key hkey reprKind optionsHash => ?_, fun key hkey reprKind optionsHash => ?_, ?_⟩
    · exact hsound.entries_evictFamily reprKind optionsHash hkey
    · exact hsound.bucketAt_evictFamily reprKind optionsHash hkey
    · exact fun owner' howner' hne key hkey => hkey.disjoint howner howner' hne
  · exact (terminalEntries_foldl new ops).trans (Nat.zero_add _)

/-- A plate realized at `1.0` and at `0.5`, with an intermediate that is rolled back,
and a lid that is evicted. -/
def plateOps : List (RealizationOp Nat Nat) :=
  [.insertTerminal "Plate" .bRep ⟨0x3FF0000000000000⟩ 0 1,
    .insertIntermediate "Plate" (.step 0) .mesh ⟨0x3FF0000000000000⟩ 0 2,
    .insertTerminal "Plate" .bRep ⟨0x3FE0000000000000⟩ 0 3,
    .insertTerminal "Lid" .bRep ⟨0x3FF0000000000000⟩ 0 4,
    .removeIntermediate "Plate" (.step 0) .mesh ⟨0x3FF0000000000000⟩ 0,
    .evictFamily "Lid"]

theorem not_synthetic_plate : ¬ Synthetic "Plate" := not_synthetic_of_hash_not_mem (by decide)

theorem not_synthetic_lid : ¬ Synthetic "Lid" := not_synthetic_of_hash_not_mem (by decide)

theorem families_run_plate :
    ((run plateOps).lookup "Plate" .bRep ⟨0x3FF0000000000000⟩ 0).isSome = true ∧
      (run plateOps).terminalEntries = 3 := by
  have hone : isValidToleranceSi ⟨0x3FF0000000000000⟩ = true := by decide
  have hhalf : isValidToleranceSi ⟨0x3FE0000000000000⟩ = true := by decide
  have hvalid : ∀ op ∈ plateOps, op.Valid := by
    simp only [plateOps, List.forall_mem_cons]
    exact ⟨⟨hone, not_synthetic_plate⟩, hone, ⟨hhalf, not_synthetic_plate⟩,
      ⟨hone, not_synthetic_lid⟩, hone, not_synthetic_lid, List.forall_mem_nil _⟩
  obtain ⟨-, -, hits, -, -, hcounter⟩ := families_run plateOps hvalid
  refine ⟨?_, hcounter.trans (by decide +kernel)⟩
  refine hits [] _ _ "Plate" .bRep 0 ⟨0x3FF0000000000000⟩ _ rfl ⟨rfl, by decide⟩ ?_ hone
    (by decide)
  simp only [List.forall_mem_cons, RealizationOp.Drops]
  refine ⟨id, id, id, ?_, ?_, List.forall_mem_nil _⟩
  · rintro ⟨hkey, -⟩
    revert hkey
    decide
  · rintro (heq | ⟨slot, heq⟩)
    · revert heq
      decide
    · exact not_synthetic_plate ⟨_, slot, heq⟩

end RealizationCache

end Reify
