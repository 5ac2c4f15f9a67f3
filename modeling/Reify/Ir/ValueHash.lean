import Reify.Ir.ValueKey

/-!
# Content hashes of values

Every content hash is a chain of combinations that starts at the hash of a tagged byte
string.  Values with the same key have the same hash; where hashing has no collisions, a
hash determines the key up to NaN payloads and to what types and cell ids read as.

## Main definitions

* `Collisionless`: hashing is injective, and combinations are injective pairs.
* `Value.hashHead`, `Value.hashTail`: the chain of a value.
* `Atom.hashText`: what a hash sees of a label.

## Main results

* `contentHash_eq_chain`: a content hash is its chain.
* `contentHash_eq_of_hashKey`: equal readings have equal hashes.
* `hashKey_eq_of_contentHash`: without collisions, equal hashes have equal readings.
-/

namespace Reify

open Foundation ContentHashing

/-- Different byte strings have different hashes, and a combination determines its two
hashes and is no hash of a byte string. -/
structure Collisionless (H : Type) [ContentHashing H] : Prop where
  of_injective : Function.Injective (of : List UInt8 → H)
  combine_injective : ∀ {a b c d : H}, combine a b = combine c d → a = c ∧ b = d
  combine_ne_of : ∀ (a b : H) (bytes : List UInt8), combine a b ≠ of bytes

namespace Collisionless

variable {H : Type} [ContentHashing H] (ideal : Collisionless H)
include ideal

/-- A chain determines its start and its members. -/
theorem chain_inj {a b : List UInt8} {hs ks : List H}
    (h : hs.foldl combine (of a) = ks.foldl combine (of b)) : a = b ∧ hs = ks := by
  induction hs using List.reverseRecOn generalizing ks with
  | nil =>
    cases ks using List.reverseRecOn with
    | nil => exact ⟨ideal.of_injective h, rfl⟩
    | append_singleton ks k =>
      rw [List.foldl_append] at h
      exact absurd h.symm (ideal.combine_ne_of _ _ _)
  | append_singleton hs x ih =>
    cases ks using List.reverseRecOn with
    | nil =>
      rw [List.foldl_append] at h
      exact absurd h (ideal.combine_ne_of _ _ _)
    | append_singleton ks k =>
      rw [List.foldl_append, List.foldl_append] at h
      obtain ⟨hinit, rfl⟩ := ideal.combine_injective h
      obtain ⟨rfl, rfl⟩ := ih hinit
      exact ⟨rfl, rfl⟩

theorem ofStr_injective : Function.Injective (ofStr : String → H) :=
  ideal.of_injective.comp utf8_injective

end Collisionless

/-! ## The chain of a value -/

/-- The hashes of a keyed sequence, each key's before its value's. -/
def keyedHashes {K H : Type} (hash : K → H) (entries : List (K × H)) : List H :=
  entries.flatMap fun e => [hash e.1, e.2]

/-- The chain of a run of floats. -/
def floatHashes {H : Type} [ContentHashing H] (xs : List F64) : List H :=
  xs.map fun x => of (leBytes 8 x.canonical.bits.toNat)

namespace Value

variable {H : Type} [ContentHashing H] [HashBits H]

/-- The byte string that starts the chain. -/
def hashHead : Value H → List UInt8
  | bool b => [0, boolByte b]
  | int i => 1 :: leBytes 8 i.toUInt64.toNat
  | real x => 2 :: floatBytes [x]
  | string _ => [3]
  | scalar siValue _ => 4 :: floatBytes [siValue]
  | enum _ _ _ => [6]
  | list _ => [7]
  | set _ => [8]
  | map _ => [9]
  | option .none => [11, 0]
  | option (.some _) => [11, 1]
  | field _ _ _ _ => [13]
  | lambda _ _ _ => [12]
  | tensor _ => [14]
  | point _ => [18]
  | vector _ => [19]
  | complex re im _ => 15 :: floatBytes [re, im]
  | orientation w x y z => 16 :: floatBytes [w, x, y, z]
  | frame _ _ => [20]
  | transform _ _ => [21]
  | plane _ _ => [22]
  | axis _ _ => [23]
  | direction x y z => 30 :: floatBytes [x, y, z]
  | boundingBox _ _ => [24]
  | range lower upper lowerInclusive upperInclusive =>
    let flags := normalizeRangeFlags lower upper lowerInclusive upperInclusive
    [17, boolByte flags.1, boolByte flags.2]
  | matrix _ => [25]
  | sampledField _ => [26]
  | structureInstance _ _ _ _ => [27]
  | geometryHandle _ _ _ => [28]
  | affineMap linear translation => 29 :: floatBytes (affineEntries linear translation)
  | selector sv => [30, sv.kind.byte]
  | feature _ => [31]
  | undef => [5]

/-- The members of an optional bound's chain. -/
def boundHashes : Option (Value H) → List H
  | .none => [of [0]]
  | .some v => [of [1], v.contentHash]

/-- The members of a keyed sequence with its length. -/
def countedHashes (entries : List (String × H)) : List H :=
  of (leBytes 8 entries.length) :: keyedHashes ofStr entries

/-- The members of the chain. -/
def hashTail : Value H → List H
  | string s => [ofStr s]
  | scalar _ dimension => [dimension.contentHash]
  | enum typeName variant payload =>
    ofStr typeName :: ofStr variant ::
      if payload.isEmpty then []
      else countedHashes (sortKeyed strCmp (payload.map (Prod.map id contentHash)))
  | list items | set items | tensor items | point items | vector items =>
    of (leBytes 8 items.length) :: items.map contentHash
  | map entries =>
    of (leBytes 8 entries.length) :: entries.flatMap fun e => [e.1.contentHash, e.2.contentHash]
  | option inner => inner.toList.map contentHash
  | field domainType codomainType source inner =>
    [ofStr domainType.display, ofStr codomainType.display, ofStr source.debug, inner.contentHash]
  | lambda params bodyHash captures =>
    of (leBytes 8 params.length) :: params.flatMap (fun p => [ofStr p.1, ofStr p.2.display]) ++
      bodyHash :: keyedHashes (fun id => ofStr id.display)
        (sortKeyed ValueCellId.cmp (captures.map (Prod.map id contentHash)))
  | complex _ _ dimension => [dimension.contentHash]
  | frame a b | transform a b | plane a b | axis a b | boundingBox a b =>
    [a.contentHash, b.contentHash]
  | range lower upper _ _ => boundHashes lower ++ boundHashes upper
  | matrix rows =>
    of (leBytes 8 rows.length) ::
      rows.flatMap fun row => of (leBytes 8 row.length) :: row.map contentHash
  | sampledField f =>
    [ofStr f.name, ofStr f.kind.debug, hashFloats f.boundsMin, hashFloats f.boundsMax,
      hashFloats f.spacing, of (leBytes 8 f.axisGrids.length)] ++ f.axisGrids.map hashFloats ++
      [ofStr f.interpolation.debug, hashFloats f.data]
  | structureInstance _ typeName version fields =>
    ofStr typeName :: of (leBytes 4 version.toNat) ::
      countedHashes (sortKeyed strCmp ((userFields fields).map (Prod.map id contentHash)))
  | geometryHandle realizationRef upstreamValuesHash _ =>
    [ofStr realizationRef.entity, of (leBytes 4 realizationRef.index.toNat),
      of upstreamValuesHash.toList]
  | selector sv => [sv.nodeHash]
  | feature fid => [of fid.contentHashBytes]
  | _ => []

/-! ### A content hash is its chain -/

theorem hashItems_eq (items : List (Value H)) : hashItems items = items.map contentHash := by
  induction items with
  | nil => rfl
  | cons v vs ih => rw [hashItems, ih, List.map_cons]

theorem hashEntries_eq (entries : List (Value H × Value H)) :
    hashEntries entries = entries.flatMap fun e => [e.1.contentHash, e.2.contentHash] := by
  induction entries with
  | nil => rfl
  | cons e es ih =>
    rw [hashEntries, ih, List.flatMap_cons]
    rfl

theorem hashRows_eq (rows : List (List (Value H))) :
    hashRows rows = rows.map fun row => row.map contentHash := by
  induction rows with
  | nil => rfl
  | cons row rows ih => rw [hashRows, ih, hashItems_eq, List.map_cons]

theorem hashNamed_eq (entries : List (String × Value H)) :
    hashNamed entries = entries.map (Prod.map id contentHash) := by
  induction entries with
  | nil => rfl
  | cons e es ih =>
    rw [hashNamed, ih, List.map_cons]
    rfl

theorem hashCaptures_eq (entries : List (ValueCellId × Value H)) :
    hashCaptures entries = entries.map (Prod.map id contentHash) := by
  induction entries with
  | nil => rfl
  | cons e es ih =>
    rw [hashCaptures, ih, List.map_cons]
    rfl

section

omit [HashBits H]

theorem hashFloats_eq (xs : List F64) :
    (hashFloats xs : H) = (floatHashes xs).foldl combine (of (leBytes 8 xs.length)) := by
  rw [hashFloats, floatHashes, List.foldl_map]

/-- Combining two hashes for each entry is combining the sequence of both. -/
theorem foldl_combine_pair {B : Type} (f g : B → H) (entries : List B) (h : H) :
    entries.foldl (fun h e => combine (combine h (f e)) (g e)) h =
      (entries.flatMap fun e => [f e, g e]).foldl combine h := by
  induction entries generalizing h with
  | nil => rfl
  | cons e es ih =>
    rw [List.foldl_cons, List.flatMap_cons, List.foldl_append, ih]
    rfl

theorem combineFields_eq (h : H) (entries : List (String × H)) :
    combineFields h entries = (countedHashes entries).foldl combine h := by
  rw [combineFields, countedHashes, List.foldl_cons, keyedHashes, ← foldl_combine_pair]
  rfl

theorem foldl_combine_rows (rows : List (List H)) (h : H) :
    rows.foldl (fun h row => row.foldl combine (combine h (of (leBytes 8 row.length)))) h =
      (rows.flatMap fun row => of (leBytes 8 row.length) :: row).foldl combine h := by
  induction rows generalizing h with
  | nil => rfl
  | cons row rows ih => rw [List.foldl_cons, List.flatMap_cons, List.foldl_append, ih, List.foldl_cons]

end

theorem combineBound_eq (h : H) (bound : Option (Value H)) :
    combineBound h (hashOption bound) = (boundHashes bound).foldl combine h := by
  cases bound
  all_goals rfl

theorem contentHash_eq_chain (a : Value H) :
    a.contentHash = a.hashTail.foldl combine (of a.hashHead) := by
  cases a with
  | enum typeName variant payload =>
    rw [contentHash, hashTail, hashHead, hashNamed_eq, combineFields_eq]
    cases payload
    all_goals rfl
  | list items | set items | tensor items | point items | vector items =>
    rw [contentHash, hashSequence, hashItems_eq, List.length_map]
    rfl
  | map entries =>
    rw [contentHash, hashEntries_eq]
    rfl
  | option inner =>
    cases inner
    all_goals rfl
  | lambda params bodyHash captures =>
    rw [contentHash, hashCaptures_eq]
    simp only [foldl_combine_pair]
    rw [hashTail, hashHead, List.cons_append, List.foldl_cons, List.foldl_append, List.foldl_cons]
    rfl
  | range lower upper lowerInclusive upperInclusive =>
    rw [contentHash, hashTail, hashHead, List.foldl_append, ← combineBound_eq, ← combineBound_eq]
  | matrix rows =>
    rw [contentHash, hashRows_eq, foldl_combine_rows, List.flatMap_map]
    simp only [List.length_map]
    rfl
  | sampledField f =>
    rw [contentHash, hashTail, hashHead, hashSampledField, List.foldl_append, List.foldl_append,
      List.foldl_map]
    rfl
  | structureInstance typeId typeName version fields =>
    rw [contentHash, hashNamed_eq, userFields_map, combineFields_eq]
    rfl
  | selector sv =>
    rw [contentHash, sv.contentHash_eq]
    rfl
  | _ => rfl

/-- The tag that a chain's start shows; a direction and a selector share their first byte. -/
def tagOfHead : List UInt8 → Nat
  | 0 :: _ => 1
  | 1 :: _ => 2
  | 2 :: _ => 3
  | 3 :: _ => 5
  | 4 :: _ => 4
  | 5 :: _ => 0
  | 6 :: _ => 6
  | 7 :: _ => 7
  | 8 :: _ => 8
  | 9 :: _ => 9
  | 11 :: _ => 10
  | 12 :: _ => 12
  | 13 :: _ => 11
  | 14 :: _ => 13
  | 15 :: _ => 14
  | 16 :: _ => 15
  | 17 :: _ => 16
  | 18 :: _ => 17
  | 19 :: _ => 18
  | 20 :: _ => 20
  | 21 :: _ => 21
  | 22 :: _ => 22
  | 23 :: _ => 23
  | 24 :: _ => 24
  | 25 :: _ => 19
  | 26 :: _ => 25
  | 27 :: _ => 26
  | 28 :: _ => 27
  | 29 :: _ => 28
  | [30, _] => 29
  | 30 :: _ => 30
  | _ => 31

omit [ContentHashing H] [HashBits H] in
theorem tagOfHead_hashHead (a : Value H) : tagOfHead a.hashHead = a.typeTag := by
  cases a with
  | option inner =>
    cases inner
    all_goals rfl
  | _ => rfl

end Value

/-! ## Readings -/

/-- What a hash sees of a label: one NaN, and the texts of types and cell ids. -/
def Atom.hashText {H : Type} : Atom H → Atom H
  | float x => float x.canonical
  | type t => str t.display
  | cell id => str id.display
  | a => a

/-- The bytes of floats show them up to the payloads of NaNs. -/
theorem floatBytes_inj {xs ys : List F64} :
    floatBytes xs = floatBytes ys ↔ xs.map F64.canonical = ys.map F64.canonical := by
  constructor
  · intro h
    refine map_eq_of_map_eq ?_ (map_eq_of_flatMap_eq (by decide : 0 < 8)
      (fun _ => length_leBytes _ _) h)
    intro x _ y _ hxy
    have hbits := leBytes_inj x.canonical.bits.toNat_lt y.canonical.bits.toNat_lt hxy
    exact F64.bits_inj.mp (UInt64.toNat_inj.mp hbits)
  · intro h
    refine congrArg List.flatten (map_eq_of_map_eq ?_ h)
    intro x _ y _ hxy
    rw [hxy]

namespace Value

variable {H : Type} [ContentHashing H] [HashBits H]

/-- The key as a hash sees it. -/
def hashKey (a : Value H) : RoseTree (Atom H) := a.key.map Atom.hashText

/-- The labels and the readings of a keyed sequence. -/
def keyedKeys {K : Type} (label : K → Atom H) (entries : List (K × Value H)) :
    List (RoseTree (Atom H)) :=
  entries.flatMap fun e => [.leaf (label e.1).hashText, e.2.hashKey]

theorem map_keyedTrees {K : Type} (label : K → Atom H) (entries : List (K × Value H)) :
    (keyedTrees label (entries.map (Prod.map id key))).map (RoseTree.map Atom.hashText) =
      keyedKeys label entries := by
  rw [keyedTrees, keyedKeys, List.flatMap_map, List.map_flatMap]
  simp only [List.map_cons, List.map_nil, RoseTree.map_leaf]
  rfl

theorem keyedHashes_eq {K : Type} (hash : K → H) (entries : List (K × Value H)) :
    keyedHashes hash (entries.map (Prod.map id contentHash)) =
      entries.flatMap fun e => [hash e.1, e.2.contentHash] := by
  rw [keyedHashes, List.flatMap_map]
  rfl

/-- Values that read the same have the same hash. -/
def HashOfKey (v w : Value H) : Prop := v.hashKey = w.hashKey → v.contentHash = w.contentHash

theorem keyedHashes_of_keyedKeys {K : Type} {label : K → Atom H} {hash : K → H}
    (hlabel : ∀ k l, (label k).hashText = (label l).hashText → hash k = hash l)
    {as bs : List (K × Value H)}
    (ih : ∀ v ∈ as.map Prod.snd, ∀ w ∈ bs.map Prod.snd, HashOfKey v w)
    (h : keyedKeys label as = keyedKeys label bs) :
    keyedHashes hash (as.map (Prod.map id contentHash)) =
      keyedHashes hash (bs.map (Prod.map id contentHash)) := by
  rw [keyedHashes_eq, keyedHashes_eq]
  refine flatMap_eq_of_flatMap_eq (by decide : 0 < 2) (fun _ => rfl) ?_ h
  intro x hx y hy hxy
  rw [List.cons.injEq, List.cons.injEq, RoseTree.leaf_inj] at hxy
  rw [hlabel _ _ hxy.1, ih _ (List.mem_map_of_mem hx) _ (List.mem_map_of_mem hy) hxy.2.1]

/-! ### The readings of the parts -/

theorem map_keyItems (items : List (Value H)) :
    (keyItems items).map (RoseTree.map Atom.hashText) = items.map hashKey := by
  rw [keyItems_eq, List.map_map]
  rfl

theorem map_keyEntries (entries : List (Value H × Value H)) :
    (keyEntries entries).map (RoseTree.map Atom.hashText) =
      entries.flatMap fun e => [e.1.hashKey, e.2.hashKey] := by
  rw [keyEntries_eq, List.map_flatMap]
  rfl

theorem map_keyRows (rows : List (List (Value H))) :
    (keyRows rows).map (RoseTree.map Atom.hashText) =
      rows.map fun row => .node (.nat 0) (row.map hashKey) := by
  rw [keyRows_eq, List.map_map]
  refine List.map_congr_left fun row _ => ?_
  rw [Function.comp_apply, RoseTree.map_node, List.map_map]
  rfl

theorem map_keyOption (inner : Option (Value H)) :
    (keyOption inner).map (RoseTree.map Atom.hashText) = inner.toList.map hashKey := by
  cases inner
  all_goals rfl

omit [ContentHashing H] [HashBits H] in
theorem map_floatsKey (xs : List F64) :
    (floatsKey xs).map (Atom.hashText (H := H)) =
      .node (.nat xs.length) (xs.map fun x => .leaf (.float x.canonical)) := by
  rw [floatsKey, RoseTree.map_node, List.map_map]
  rfl

theorem map_keyedSorted {K : Type} (cmpK : K → K → Ordering) (label : K → Atom H)
    (entries : List (K × Value H)) :
    (keyedTrees label (sortKeyed cmpK (entries.map (Prod.map id key)))).map
      (RoseTree.map Atom.hashText) = keyedKeys label (sortKeyed cmpK entries) := by
  rw [sortKeyed_map, map_keyedTrees]

omit [ContentHashing H] [HashBits H] in
theorem mem_of_mem_sorted {K : Type} {cmpK : K → K → Ordering} {entries : List (K × Value H)}
    {v : Value H} (hv : v ∈ (sortKeyed cmpK entries).map Prod.snd) : v ∈ entries.map Prod.snd :=
  ((sortKeyed_perm entries).map Prod.snd).mem_iff.mp hv

omit [ContentHashing H] [HashBits H] in
theorem mem_of_mem_userFields {fields : List (String × Value H)} {v : Value H}
    (hv : v ∈ (userFields fields).map Prod.snd) : v ∈ fields.map Prod.snd :=
  (List.filter_sublist.map Prod.snd).subset hv

/-- Keyed sequences that read the same have as many entries. -/
theorem length_eq_of_keyedKeys {K : Type} {label : K → Atom H} {as bs : List (K × Value H)}
    (h : keyedKeys label as = keyedKeys label bs) : as.length = bs.length :=
  length_eq_of_flatMap_eq (by decide : 0 < 2) (fun _ => rfl) h

/-- The parts of a reading. -/
def hashParts : Value H → List (RoseTree (Atom H))
  | undef => []
  | bool b => [.leaf (.nat b.toNat)]
  | int i => [.leaf (.int i.toInt)]
  | real x => [.leaf (.float x.canonical)]
  | scalar x d => [.leaf (.dimension d), .leaf (.float x.canonical)]
  | string s => [.leaf (.str s)]
  | enum typeName variant payload =>
    .leaf (.str typeName) :: .leaf (.str variant) :: keyedKeys .str (sortKeyed strCmp payload)
  | list items | set items | tensor items | point items | vector items => items.map hashKey
  | map entries => entries.flatMap fun e => [e.1.hashKey, e.2.hashKey]
  | option inner => inner.toList.map hashKey
  | field domainType codomainType source inner =>
    [.leaf (.str domainType.display), .leaf (.str codomainType.display), .leaf (.str source.debug),
      inner.hashKey]
  | lambda params bodyHash captures =>
    .node (.nat 0) (params.flatMap fun p => [.leaf (.str p.1), .leaf (.str p.2.display)]) ::
      .leaf (.hash bodyHash) :: keyedKeys .cell (sortKeyed ValueCellId.cmp captures)
  | complex re im d => [.leaf (.dimension d), .leaf (.float re.canonical), .leaf (.float im.canonical)]
  | orientation w x y z =>
    [.leaf (.float w.canonical), .leaf (.float x.canonical), .leaf (.float y.canonical),
      .leaf (.float z.canonical)]
  | range lower upper lowerInclusive upperInclusive =>
    let flags := normalizeRangeFlags lower upper lowerInclusive upperInclusive
    [.leaf (.nat flags.1.toNat), .node (.nat 0) (lower.toList.map hashKey),
      .leaf (.nat flags.2.toNat), .node (.nat 0) (upper.toList.map hashKey)]
  | matrix rows => rows.map fun row => .node (.nat 0) (row.map hashKey)
  | frame a b | transform a b | plane a b | axis a b | boundingBox a b => [a.hashKey, b.hashKey]
  | sampledField f => f.key.map (RoseTree.map Atom.hashText)
  | structureInstance _ typeName version fields =>
    .leaf (.str typeName) :: .leaf (.nat version.toNat) ::
      keyedKeys .str (sortKeyed strCmp (userFields fields))
  | geometryHandle realizationRef upstreamValuesHash _ =>
    [.leaf (.str realizationRef.entity), .leaf (.nat realizationRef.index.toNat),
      .leaf (.bytes upstreamValuesHash.toList)]
  | affineMap linear translation =>
    (affineEntries linear translation).map fun x => .leaf (.float x.canonical)
  | selector sv => [.leaf (.hash sv.contentHash)]
  | direction x y z =>
    [.leaf (.float x.canonical), .leaf (.float y.canonical), .leaf (.float z.canonical)]
  | feature fid => [.leaf (.bytes fid.contentHashBytes)]

theorem hashKey_eq (a : Value H) : a.hashKey = .node (.nat a.typeTag) a.hashParts := by
  rw [hashKey]
  cases a
  all_goals
    simp only [key, RoseTree.map_node, List.map_cons, List.map_nil, RoseTree.map_leaf,
      Atom.hashText, keyNamed_eq, keyCaptures_eq, userFields_map, map_keyedSorted, map_keyItems,
      map_keyEntries, map_keyRows, map_keyOption, List.map_map, List.map_flatMap]
    rfl

/-! ### Equal readings have equal hashes -/

theorem countedHashes_of_keyedKeys {as bs : List (String × Value H)}
    (ih : ∀ v ∈ as.map Prod.snd, ∀ w ∈ bs.map Prod.snd, HashOfKey v w)
    (h : keyedKeys .str as = keyedKeys .str bs) :
    countedHashes (as.map (Prod.map id contentHash)) =
      countedHashes (bs.map (Prod.map id contentHash)) := by
  rw [countedHashes, countedHashes, List.length_map, List.length_map, length_eq_of_keyedKeys h]
  refine congrArg _ (keyedHashes_of_keyedKeys ?_ ih h)
  intro k l hkl
  rw [Atom.str.inj hkl]

omit [ContentHashing H] [HashBits H] in
theorem floats_of_map {xs ys : List F64}
    (h : (xs.map fun x => RoseTree.leaf (Atom.float (H := H) x.canonical)) =
      ys.map fun x => .leaf (.float x.canonical)) :
    xs.map F64.canonical = ys.map F64.canonical := by
  refine map_eq_of_map_eq ?_ h
  intro x _ y _ hxy
  exact Atom.float.inj (RoseTree.leaf_inj.mp hxy)

omit [HashBits H] in
theorem hashFloats_of_map {xs ys : List F64}
    (h : (floatsKey xs).map (Atom.hashText (H := H)) = (floatsKey ys).map Atom.hashText) :
    (hashFloats xs : H) = hashFloats ys := by
  rw [map_floatsKey, map_floatsKey, RoseTree.node.injEq, Atom.nat.injEq] at h
  rw [hashFloats_eq, hashFloats_eq, h.1, floatHashes, floatHashes]
  refine congrArg _ (map_eq_of_map_eq ?_ (floats_of_map h.2))
  intro x _ y _ hxy
  rw [hxy]

theorem boundHashes_of_map {a b : Option (Value H)}
    (ih : ∀ v ∈ a.toList, ∀ w ∈ b.toList, HashOfKey v w)
    (h : a.toList.map hashKey = b.toList.map hashKey) : boundHashes a = boundHashes b := by
  cases a with
  | none =>
    cases b with
    | none => rfl
    | some w => simp at h
  | some v =>
    cases b with
    | none => simp at h
    | some w =>
      have hvw : v.hashKey = w.hashKey := by simpa using h
      rw [boundHashes, boundHashes, ih v (by simp) w (by simp) hvw]

/-- The hashes of a payload, none where there is no payload. -/
theorem payloadHashes_of_keyedKeys {as bs : List (String × Value H)}
    (ih : ∀ v ∈ as.map Prod.snd, ∀ w ∈ bs.map Prod.snd, HashOfKey v w)
    (h : keyedKeys .str (sortKeyed strCmp as) = keyedKeys .str (sortKeyed strCmp bs)) :
    (if as.isEmpty then []
      else countedHashes (sortKeyed strCmp (as.map (Prod.map id contentHash)))) =
      if bs.isEmpty then []
      else countedHashes (sortKeyed strCmp (bs.map (Prod.map id contentHash))) := by
  have hcounted := countedHashes_of_keyedKeys
    (fun v hv w hw => ih v (mem_of_mem_sorted hv) w (mem_of_mem_sorted hw)) h
  have hlength := length_eq_of_keyedKeys h
  rw [(sortKeyed_perm as).length_eq, (sortKeyed_perm bs).length_eq] at hlength
  have hempty : as.isEmpty = bs.isEmpty := by
    cases as
    all_goals
      cases bs
      all_goals simp at hlength ⊢
  rw [sortKeyed_map, sortKeyed_map, hcounted, hempty]

/-- The readings of a lambda's parameters. -/
def paramKeys (params : List (String × ValueCellId)) : List (RoseTree (Atom H)) :=
  params.flatMap fun p => [.leaf (.str p.1), .leaf (.str p.2.display)]

/-- The hashes of a lambda's parameters. -/
def paramHashes (params : List (String × ValueCellId)) : List H :=
  params.flatMap fun p => [ofStr p.1, ofStr p.2.display]

omit [HashBits H] in
theorem paramHashes_of_paramKeys {ps qs : List (String × ValueCellId)}
    (h : (paramKeys ps : List (RoseTree (Atom H))) = paramKeys qs) :
    (paramHashes ps : List H) = paramHashes qs := by
  refine flatMap_eq_of_flatMap_eq (by decide : 0 < 2) (fun _ => rfl) (fun p _ q _ hpq => ?_) h
  simp only [List.cons.injEq, RoseTree.leaf_inj, Atom.str.injEq] at hpq
  rw [hpq.1, hpq.2.1]

/-- The hashes of the rows of a matrix, each behind its length. -/
theorem rowHashes_eq (rows : List (List (Value H))) :
    (rows.flatMap fun row => of (leBytes 8 row.length) :: row.map contentHash) =
      (rows.map (List.map contentHash)).flatMap fun row => of (leBytes 8 row.length) :: row := by
  simp [List.flatMap_map]

theorem sampledField_hashTail_of_hashParts {a b : SampledField}
    (h : (sampledField a : Value H).hashParts = (sampledField b).hashParts) :
    (sampledField a : Value H).hashTail = (sampledField b).hashTail := by
  simp only [hashParts, SampledField.key, List.map_cons, List.map_nil, List.cons.injEq,
    RoseTree.map_leaf, RoseTree.map_node, RoseTree.leaf_inj, Atom.hashText, Atom.str.injEq,
    RoseTree.node.injEq, Atom.nat.injEq, List.map_map] at h
  obtain ⟨hname, hkind, hmin, hmax, hspacing, ⟨hcount, hgrids⟩, hinterpolation, hdata, -⟩ := h
  have hgridHashes : a.axisGrids.map (hashFloats (H := H)) = b.axisGrids.map hashFloats :=
    map_eq_of_map_eq (fun _ _ _ _ hgrid => hashFloats_of_map hgrid) hgrids
  rw [hashTail, hashTail, hname, hkind, hashFloats_of_map hmin, hashFloats_of_map hmax,
    hashFloats_of_map hspacing, hcount, hgridHashes, hinterpolation, hashFloats_of_map hdata]

/-- Values of one variant that read the same have the same chain.  A selector's reading is
its hash, which says nothing of a chain. -/
theorem chain_eq_of_hashParts {a b : Value H} (hsame : SameVariant a b) (hselector : a.typeTag ≠ 29)
    (ih : ∀ v ∈ a.children, ∀ w ∈ b.children, HashOfKey v w) (h : a.hashParts = b.hashParts) :
    a.hashHead = b.hashHead ∧ a.hashTail = b.hashTail := by
  cases hsame with
  | undef => exact ⟨rfl, rfl⟩
  | bool a b =>
    cases a
    all_goals
      cases b
      all_goals simp [hashParts, RoseTree.leaf_inj] at h ⊢
  | int a b =>
    simp only [hashParts, List.cons.injEq, RoseTree.leaf_inj, Atom.int.injEq, Int64.toInt_inj] at h
    rw [h.1]
    exact ⟨rfl, rfl⟩
  | real a b =>
    simp only [hashParts, List.cons.injEq, RoseTree.leaf_inj, Atom.float.injEq] at h
    simp [hashHead, hashTail, floatBytes_inj, h]
  | scalar a ad b bd =>
    simp only [hashParts, List.cons.injEq, RoseTree.leaf_inj, Atom.float.injEq,
      Atom.dimension.injEq] at h
    simp [hashHead, hashTail, floatBytes_inj, h]
  | string a b =>
    simp only [hashParts, List.cons.injEq, RoseTree.leaf_inj, Atom.str.injEq] at h
    rw [h.1]
    exact ⟨rfl, rfl⟩
  | enum a av ap b bv bp =>
    simp only [hashParts, List.cons.injEq, RoseTree.leaf_inj, Atom.str.injEq] at h
    obtain ⟨rfl, rfl, hpayload⟩ := h
    refine ⟨rfl, ?_⟩
    rw [hashTail, hashTail, payloadHashes_of_keyedKeys ih hpayload]
  | list as bs | set as bs | tensor as bs | point as bs | vector as bs =>
    have hlength := congrArg List.length h
    simp only [hashParts, List.length_map] at hlength
    have hitems : as.map contentHash = bs.map contentHash := map_eq_of_map_eq ih h
    refine ⟨rfl, ?_⟩
    rw [hashTail, hashTail, hlength, hitems]
  | map as bs =>
    have hlength := length_eq_of_flatMap_eq (by decide : 0 < 2) (fun _ => rfl) h
    refine ⟨rfl, ?_⟩
    rw [hashTail, hashTail, hlength]
    exact congrArg _ (flatMap_pair_eq_of_eq ih h)
  | option a b =>
    have hinner : a.toList.map contentHash = b.toList.map contentHash := map_eq_of_map_eq ih h
    refine ⟨?_, hinner⟩
    cases a
    all_goals
      cases b
      all_goals simp [hashParts] at h ⊢
      all_goals rfl
  | field ad ac asrc al bd bc bsrc bl =>
    simp only [hashParts, List.cons.injEq, RoseTree.leaf_inj, Atom.str.injEq, and_true] at h
    have hinner := ih al List.mem_cons_self bl List.mem_cons_self h.2.2.2
    refine ⟨rfl, ?_⟩
    rw [hashTail, hashTail, h.1, h.2.1, h.2.2.1, hinner]
  | lambda ap ab ac bp bb bc =>
    simp only [hashParts, List.cons.injEq, RoseTree.leaf_inj, RoseTree.node.injEq, true_and,
      Atom.hash.injEq] at h
    obtain ⟨hparams, rfl, hcaptures⟩ := h
    have hlength := length_eq_of_flatMap_eq (by decide : 0 < 2) (fun _ => rfl) hparams
    have hcells : (paramHashes ap : List H) = paramHashes bp := paramHashes_of_paramKeys hparams
    unfold paramHashes at hcells
    have hhashes := @keyedHashes_of_keyedKeys _ _ _ _ .cell (fun id => (ofStr id.display : H))
      (fun k l hkl => congrArg ofStr (Atom.str.inj hkl)) _ _
      (fun v hv w hw => ih v (mem_of_mem_sorted hv) w (mem_of_mem_sorted hw)) hcaptures
    refine ⟨rfl, ?_⟩
    rw [hashTail, hashTail, hlength, hcells, sortKeyed_map, sortKeyed_map, hhashes]
  | complex ar ai ad br bi bd =>
    simp only [hashParts, List.cons.injEq, RoseTree.leaf_inj, Atom.float.injEq,
      Atom.dimension.injEq] at h
    simp [hashHead, hashTail, floatBytes_inj, h]
  | orientation aw ax ay az bw bx bY bz =>
    simp only [hashParts, List.cons.injEq, RoseTree.leaf_inj, Atom.float.injEq] at h
    simp [hashHead, hashTail, floatBytes_inj, h]
  | range al au ali aui bl bu bli bui =>
    simp only [hashParts, List.cons.injEq, RoseTree.leaf_inj, Atom.nat.injEq, RoseTree.node.injEq,
      toNat_inj, true_and, and_true] at h
    obtain ⟨hlower, hlowerKey, hupper, hupperKey⟩ := h
    have hl := boundHashes_of_map (fun v hv w hw =>
      ih v (List.mem_append_left _ hv) w (List.mem_append_left _ hw)) hlowerKey
    have hu := boundHashes_of_map (fun v hv w hw =>
      ih v (List.mem_append_right _ hv) w (List.mem_append_right _ hw)) hupperKey
    rw [hashTail, hashTail, hl, hu, hashHead, hashHead, hlower, hupper]
    exact ⟨rfl, rfl⟩
  | matrix as bs =>
    have hlength := congrArg List.length h
    simp only [hashParts, List.length_map] at hlength
    refine ⟨rfl, ?_⟩
    rw [hashTail, hashTail, hlength]
    have hkeys : as.map (List.map hashKey) = bs.map (List.map hashKey) := by
      refine map_eq_of_map_eq (fun row _ row' _ hrow => ?_) h
      rw [RoseTree.node.injEq] at hrow
      exact hrow.2
    rw [rowHashes_eq, rowHashes_eq, map_rows_eq_of_eq ih hkeys]
  | frame a a' b b' | transform a a' b b' | plane a a' b b' | axis a a' b b'
  | boundingBox a a' b b' =>
    simp only [hashParts, List.cons.injEq] at h
    refine ⟨rfl, ?_⟩
    rw [hashTail, hashTail, ih a (by simp [children]) b (by simp [children]) h.1,
      ih a' (by simp [children]) b' (by simp [children]) h.2.1]
  | sampledField a b => exact ⟨rfl, sampledField_hashTail_of_hashParts h⟩
  | structureInstance ai an av af bi bn bv bf =>
    simp only [hashParts, List.cons.injEq, RoseTree.leaf_inj, Atom.str.injEq, Atom.nat.injEq] at h
    obtain ⟨rfl, hversion, hfields⟩ := h
    have hcounted := countedHashes_of_keyedKeys
      (fun v hv w hw => ih v (mem_of_mem_userFields (mem_of_mem_sorted hv)) w
        (mem_of_mem_userFields (mem_of_mem_sorted hw))) hfields
    refine ⟨rfl, ?_⟩
    rw [hashTail, hashTail, sortKeyed_map, sortKeyed_map, hcounted, hversion]
  | geometryHandle ar ah ak br bh bk =>
    simp only [hashParts, List.cons.injEq, RoseTree.leaf_inj, Atom.str.injEq, Atom.nat.injEq,
      Atom.bytes.injEq] at h
    refine ⟨rfl, ?_⟩
    rw [hashTail, hashTail, h.1, h.2.1, h.2.2.1]
  | affineMap al tr bl bt =>
    simp [hashHead, hashTail, floatBytes_inj, floats_of_map h]
  | selector a b => exact absurd rfl hselector
  | direction ax ay az bx bY bz =>
    simp only [hashParts, List.cons.injEq, RoseTree.leaf_inj, Atom.float.injEq] at h
    simp [hashHead, hashTail, floatBytes_inj, h]
  | feature a b =>
    simp only [hashParts, List.cons.injEq, RoseTree.leaf_inj, Atom.bytes.injEq] at h
    refine ⟨rfl, ?_⟩
    rw [hashTail, hashTail, h.1]

/-- Values that read the same have the same hash. -/
theorem contentHash_eq_of_hashKey {a b : Value H} (h : a.hashKey = b.hashKey) :
    a.contentHash = b.contentHash := by
  induction a using childInduct generalizing b with
  | step a ih =>
    rw [hashKey_eq, hashKey_eq, RoseTree.node.injEq] at h
    have htag := Atom.nat.inj h.1
    by_cases hselector : a.typeTag = 29
    · cases sameVariant_of_typeTag htag with
      | selector sv sv' =>
        have hhash := List.head_eq_of_cons_eq h.2
        exact Atom.hash.inj (RoseTree.leaf_inj.mp hhash)
      | _ => cases hselector
    · have hchain := chain_eq_of_hashParts (sameVariant_of_typeTag htag) hselector
        (fun v hv w _ => ih v hv) h.2
      rw [contentHash_eq_chain, contentHash_eq_chain, hchain.1, hchain.2]

/-! ### Equal hashes have equal readings -/

theorem toUInt16_inj {a b : Int16} (h : a.toUInt16 = b.toUInt16) : a = b := by
  cases a
  cases b
  exact congrArg Int16.ofUInt16 h

theorem toUInt64_inj {a b : Int64} (h : a.toUInt64 = b.toUInt64) : a = b := by
  cases a
  cases b
  exact congrArg Int64.ofUInt64 h

section Collisionless

variable (ideal : Collisionless H)
include ideal

omit [HashBits H] in
theorem dimensionHash_injective :
    Function.Injective (DimensionVector.contentHash : DimensionVector → H) := by
  intro d e h
  let block (r : Rational) : List UInt8 :=
    leBytes 2 r.num.toUInt16.toNat ++ leBytes 2 r.den.toUInt16.toNat
  have hblock : Function.Injective block := by
    rintro ⟨num, den, _, _⟩ ⟨num', den', _, _⟩ hrs
    obtain ⟨hnum, hden⟩ := List.append_inj hrs (by rw [length_leBytes, length_leBytes])
    have hnat := leBytes_inj num.toUInt16.toNat_lt num'.toUInt16.toNat_lt hnum
    have hnat' := leBytes_inj den.toUInt16.toNat_lt den'.toUInt16.toNat_lt hden
    obtain rfl := toUInt16_inj (UInt16.toNat_inj.mp hnat)
    obtain rfl := toUInt16_inj (UInt16.toNat_inj.mp hnat')
    rfl
  have hflat (d : DimensionVector) : (d.contentHash : H) =
      of (((List.finRange 10).map d.exps).flatMap block) := by
    rw [List.flatMap_map, DimensionVector.contentHash]
  rw [hflat, hflat] at h
  have hmap := List.map_injective_iff.mpr hblock
    (map_eq_of_flatMap_eq (by decide : 0 < 4) (fun _ => by simp [block]) (ideal.of_injective h))
  cases d
  cases e
  exact congrArg DimensionVector.mk
    (funext fun i => List.map_inj_left.mp hmap i (List.mem_finRange i))

omit [HashBits H] in
theorem map_canonical_of_hashFloats {xs ys : List F64} (h : (hashFloats xs : H) = hashFloats ys) :
    xs.map F64.canonical = ys.map F64.canonical := by
  rw [hashFloats_eq, hashFloats_eq] at h
  refine map_eq_of_map_eq ?_ (ideal.chain_inj h).2
  intro x _ y _ hxy
  have hbits := leBytes_inj x.canonical.bits.toNat_lt y.canonical.bits.toNat_lt
    (ideal.of_injective hxy)
  exact F64.bits_inj.mp (UInt64.toNat_inj.mp hbits)

omit [HashBits H] in
theorem map_floatsKey_of_hashFloats {xs ys : List F64} (h : (hashFloats xs : H) = hashFloats ys) :
    (floatsKey xs).map (Atom.hashText (H := H)) = (floatsKey ys).map Atom.hashText := by
  have hmap := map_canonical_of_hashFloats ideal h
  have hlength := congrArg List.length hmap
  rw [List.length_map, List.length_map] at hlength
  rw [map_floatsKey, map_floatsKey, hlength]
  refine congrArg _ (map_eq_of_map_eq ?_ hmap)
  intro x _ y _ hxy
  rw [hxy]

omit [HashBits H] in
/-- The length of a sequence is read back from its hash. -/
theorem length_of_hash {n m : Nat} (hn : n < 2 ^ 64) (hm : m < 2 ^ 64)
    (h : (of (leBytes 8 n) : H) = of (leBytes 8 m)) : n = m :=
  leBytes_inj (w := 8) hn hm (ideal.of_injective h)

omit [HashBits H] in
/-- The rows of hashes are read back, each from its length. -/
theorem rows_of_hashes {as bs : List (List H)} (has : ∀ row ∈ as, row.length < 2 ^ 64)
    (hbs : ∀ row ∈ bs, row.length < 2 ^ 64)
    (h : (as.flatMap fun row => of (leBytes 8 row.length) :: row) =
      bs.flatMap fun row => of (leBytes 8 row.length) :: row) : as = bs := by
  induction as generalizing bs with
  | nil =>
    cases bs with
    | nil => rfl
    | cons b bs => simp at h
  | cons a as ih =>
    cases bs with
    | nil => simp at h
    | cons b bs =>
      rw [List.flatMap_cons, List.flatMap_cons, List.cons_append, List.cons_append,
        List.cons.injEq] at h
      have hlength := length_of_hash ideal (has a List.mem_cons_self) (hbs b List.mem_cons_self) h.1
      obtain ⟨rfl, hrest⟩ := List.append_inj h.2 hlength
      rw [ih (fun row hrow => has row (List.mem_cons_of_mem _ hrow))
        (fun row hrow => hbs row (List.mem_cons_of_mem _ hrow)) hrest]

/-- Values with the same hash read the same. -/
def KeyOfHash (v w : Value H) : Prop := v.contentHash = w.contentHash → v.hashKey = w.hashKey

omit ideal in
theorem keyedKeys_of_keyedHashes {K : Type} {label : K → Atom H} {hash : K → H}
    (hlabel : ∀ k l, hash k = hash l → (label k).hashText = (label l).hashText)
    {as bs : List (K × Value H)}
    (ih : ∀ v ∈ as.map Prod.snd, ∀ w ∈ bs.map Prod.snd, KeyOfHash v w)
    (h : keyedHashes hash (as.map (Prod.map id contentHash)) =
      keyedHashes hash (bs.map (Prod.map id contentHash))) :
    keyedKeys label as = keyedKeys label bs := by
  rw [keyedHashes_eq, keyedHashes_eq] at h
  refine flatMap_eq_of_flatMap_eq (by decide : 0 < 2) (fun _ => rfl) ?_ h
  intro x hx y hy hxy
  rw [List.cons.injEq, List.cons.injEq] at hxy
  rw [hlabel _ _ hxy.1, ih _ (List.mem_map_of_mem hx) _ (List.mem_map_of_mem hy) hxy.2.1]

theorem keyedKeys_of_countedHashes {as bs : List (String × Value H)}
    (ih : ∀ v ∈ as.map Prod.snd, ∀ w ∈ bs.map Prod.snd, KeyOfHash v w)
    (h : countedHashes (as.map (Prod.map id contentHash)) =
      countedHashes (bs.map (Prod.map id contentHash))) :
    keyedKeys .str as = keyedKeys .str bs := by
  rw [countedHashes, countedHashes, List.cons.injEq] at h
  refine keyedKeys_of_keyedHashes (fun k l hkl => ?_) ih h.2
  rw [ideal.ofStr_injective hkl]

/-- The mark of a bound tells how many hashes belong to it. -/
theorem map_hashKey_of_boundHashes {a b : Option (Value H)} {hs ks : List H}
    (ih : ∀ v ∈ a.toList, ∀ w ∈ b.toList, KeyOfHash v w)
    (h : boundHashes a ++ hs = boundHashes b ++ ks) :
    a.toList.map hashKey = b.toList.map hashKey ∧ hs = ks := by
  have hmark : (of [0] : H) ≠ of [1] := fun h => by cases ideal.of_injective h
  cases a with
  | none =>
    cases b with
    | none => exact ⟨rfl, (List.cons.inj h).2⟩
    | some w => exact absurd (List.cons.inj h).1 hmark
  | some v =>
    cases b with
    | none => exact absurd (List.cons.inj h).1.symm hmark
    | some w =>
      obtain ⟨hvw, hrest⟩ := List.cons.inj (List.cons.inj h).2
      refine ⟨?_, hrest⟩
      rw [Option.toList_some, Option.toList_some, List.map_cons, List.map_cons,
        ih v (by simp) w (by simp) hvw]

theorem keyedKeys_of_payloadHashes {as bs : List (String × Value H)}
    (ih : ∀ v ∈ as.map Prod.snd, ∀ w ∈ bs.map Prod.snd, KeyOfHash v w)
    (h : (if as.isEmpty then []
      else countedHashes (sortKeyed strCmp (as.map (Prod.map id contentHash)))) =
      if bs.isEmpty then []
      else countedHashes (sortKeyed strCmp (bs.map (Prod.map id contentHash)))) :
    keyedKeys .str (sortKeyed strCmp as) = keyedKeys .str (sortKeyed strCmp bs) := by
  cases as with
  | nil =>
    cases bs with
    | nil => rfl
    | cons e es => simp [countedHashes] at h
  | cons e es =>
    cases bs with
    | nil => simp [countedHashes] at h
    | cons e' es' =>
      rw [if_neg (by simp), if_neg (by simp), sortKeyed_map, sortKeyed_map] at h
      exact keyedKeys_of_countedHashes ideal
        (fun v hv w hw => ih v (mem_of_mem_sorted hv) w (mem_of_mem_sorted hw)) h

omit [HashBits H] in
theorem paramKeys_of_paramHashes {ps qs : List (String × ValueCellId)}
    (h : (paramHashes ps : List H) = paramHashes qs) :
    (paramKeys ps : List (RoseTree (Atom H))) = paramKeys qs := by
  refine flatMap_eq_of_flatMap_eq (by decide : 0 < 2) (fun _ => rfl) (fun p _ q _ hpq => ?_) h
  rw [List.cons.injEq, List.cons.injEq] at hpq
  rw [ideal.ofStr_injective hpq.1, ideal.ofStr_injective hpq.2.1]

/-- The hashes of the rows show the rows. -/
theorem map_rows_of_rowHashes {as bs : List (List (Value H))}
    (has : ∀ row ∈ as, row.length < 2 ^ 64) (hbs : ∀ row ∈ bs, row.length < 2 ^ 64)
    (h : (as.flatMap fun row => of (leBytes 8 row.length) :: row.map contentHash) =
      bs.flatMap fun row => of (leBytes 8 row.length) :: row.map contentHash) :
    as.map (List.map contentHash) = bs.map (List.map contentHash) := by
  have hlengths {rows : List (List (Value H))} (h : ∀ row ∈ rows, row.length < 2 ^ 64) :
      ∀ row ∈ rows.map (List.map contentHash), row.length < 2 ^ 64 := by
    intro row hrow
    obtain ⟨row', hrow', rfl⟩ := List.mem_map.mp hrow
    rw [List.length_map]
    exact h row' hrow'
  rw [rowHashes_eq, rowHashes_eq] at h
  exact rows_of_hashes ideal (hlengths has) (hlengths hbs) h

theorem sampledField_hashParts_of_hashTail {a b : SampledField}
    (h : (sampledField a : Value H).hashTail = (sampledField b).hashTail) :
    (sampledField a : Value H).hashParts = (sampledField b).hashParts := by
  have hlength := congrArg List.length h
  simp only [hashTail, List.length_append, List.length_map, List.length_cons, List.length_nil,
    Nat.add_left_inj, Nat.add_right_inj] at hlength
  simp only [hashTail, List.append_assoc] at h
  -- the hashes before the grids, those of the grids, and those behind them
  obtain ⟨hfixed, hrest⟩ := List.append_inj h rfl
  obtain ⟨hgrids, hlast⟩ := List.append_inj hrest (by rw [List.length_map, List.length_map, hlength])
  simp only [List.cons.injEq, and_true] at hfixed hlast
  obtain ⟨hname, hkind, hmin, hmax, hspacing, -⟩ := hfixed
  have hgridKeys : a.axisGrids.map (RoseTree.map (Atom.hashText (H := H)) ∘ floatsKey) =
      b.axisGrids.map (RoseTree.map Atom.hashText ∘ floatsKey) :=
    map_eq_of_map_eq (fun _ _ _ _ hgrid => map_floatsKey_of_hashFloats ideal hgrid) hgrids
  simp only [hashParts, SampledField.key, List.map_cons, List.map_nil, RoseTree.map_leaf,
    RoseTree.map_node, Atom.hashText, List.map_map]
  rw [ideal.ofStr_injective hname, ideal.ofStr_injective hkind,
    map_floatsKey_of_hashFloats ideal hmin, map_floatsKey_of_hashFloats ideal hmax,
    map_floatsKey_of_hashFloats ideal hspacing, hlength, hgridKeys,
    ideal.ofStr_injective hlast.1, map_floatsKey_of_hashFloats ideal hlast.2]

/-- Values of one variant with the same chain read the same. -/
theorem hashParts_eq_of_chain {a b : Value H} (hsame : SameVariant a b) (ha : a.Formed)
    (hb : b.Formed) (ih : ∀ v ∈ a.children, ∀ w ∈ b.children, KeyOfHash v w)
    (hhead : a.hashHead = b.hashHead) (htail : a.hashTail = b.hashTail) :
    a.hashParts = b.hashParts := by
  cases hsame with
  | undef => rfl
  | bool a b =>
    cases a
    all_goals
      cases b
      all_goals simp [hashParts, hashHead, boolByte] at hhead ⊢
  | int a b =>
    rw [hashHead, hashHead, List.cons.injEq] at hhead
    have hnat := leBytes_inj a.toUInt64.toNat_lt b.toUInt64.toNat_lt hhead.2
    rw [hashParts, hashParts, toUInt64_inj (UInt64.toNat_inj.mp hnat)]
  | real a b =>
    simp only [hashHead, List.cons.injEq, floatBytes_inj, List.map_cons] at hhead
    rw [hashParts, hashParts, hhead.2.1]
  | scalar a ad b bd =>
    simp only [hashHead, List.cons.injEq, floatBytes_inj, List.map_cons] at hhead
    rw [hashTail, hashTail, List.cons.injEq] at htail
    rw [hashParts, hashParts, hhead.2.1, dimensionHash_injective ideal htail.1]
  | string a b =>
    rw [hashTail, hashTail, List.cons.injEq] at htail
    rw [ideal.ofStr_injective htail.1]
  | enum a av ap b bv bp =>
    simp only [hashTail, List.cons.injEq] at htail
    obtain ⟨ha, hav, hpayload⟩ := htail
    rw [hashParts, hashParts, ideal.ofStr_injective ha, ideal.ofStr_injective hav]
    exact congrArg _ (congrArg _ (keyedKeys_of_payloadHashes ideal ih hpayload))
  | list as bs | set as bs | tensor as bs | point as bs | vector as bs =>
    rw [hashTail, hashTail, List.cons.injEq] at htail
    exact map_eq_of_map_eq ih htail.2
  | map as bs =>
    rw [hashTail, hashTail, List.cons.injEq] at htail
    exact flatMap_pair_eq_of_eq ih htail.2
  | option a b => exact map_eq_of_map_eq ih htail
  | field ad ac asrc al bd bc bsrc bl =>
    simp only [hashTail, List.cons.injEq, and_true] at htail
    obtain ⟨hd, hc, hsource, hl⟩ := htail
    rw [hashParts, hashParts, ideal.ofStr_injective hd, ideal.ofStr_injective hc,
      ideal.ofStr_injective hsource, ih al List.mem_cons_self bl List.mem_cons_self hl]
  | lambda ap ab ac bp bb bc =>
    rw [hashTail, hashTail, List.cons_append, List.cons_append, List.cons.injEq] at htail
    have hlength := length_of_hash ideal ha hb htail.1
    obtain ⟨hparams, hrest⟩ := List.append_inj htail.2 (by simp [hlength])
    obtain ⟨rfl, hcaptures⟩ := List.cons.inj hrest
    rw [sortKeyed_map, sortKeyed_map] at hcaptures
    have hkeys := @keyedKeys_of_keyedHashes _ _ _ _ .cell (fun id => (ofStr id.display : H))
      (fun k l hkl => congrArg Atom.str (ideal.ofStr_injective hkl)) _ _
      (fun v hv w hw => ih v (mem_of_mem_sorted hv) w (mem_of_mem_sorted hw)) hcaptures
    rw [hashParts, hashParts, hkeys]
    exact congrArg₂ List.cons (congrArg _ (paramKeys_of_paramHashes ideal hparams)) rfl
  | complex ar ai ad br bi bd =>
    simp only [hashHead, List.cons.injEq, floatBytes_inj, List.map_cons] at hhead
    rw [hashTail, hashTail, List.cons.injEq] at htail
    rw [hashParts, hashParts, hhead.2.1, hhead.2.2.1, dimensionHash_injective ideal htail.1]
  | orientation aw ax ay az bw bx bY bz =>
    simp only [hashHead, List.cons.injEq, floatBytes_inj, List.map_cons] at hhead
    rw [hashParts, hashParts, hhead.2.1, hhead.2.2.1, hhead.2.2.2.1, hhead.2.2.2.2.1]
  | range al au ali aui bl bu bli bui =>
    have hflag : ∀ {x y : Bool}, boolByte x = boolByte y → x = y := by decide
    simp only [hashHead, List.cons.injEq] at hhead
    rw [hashTail, hashTail, ← List.append_nil (boundHashes al ++ _),
      ← List.append_nil (boundHashes bl ++ _), List.append_assoc, List.append_assoc] at htail
    obtain ⟨hlower, hrest⟩ := map_hashKey_of_boundHashes ideal (fun v hv w hw =>
      ih v (List.mem_append_left _ hv) w (List.mem_append_left _ hw)) htail
    obtain ⟨hupper, -⟩ := map_hashKey_of_boundHashes ideal (fun v hv w hw =>
      ih v (List.mem_append_right _ hv) w (List.mem_append_right _ hw)) hrest
    simp only [hashParts, hlower, hupper, hflag hhead.2.1, hflag hhead.2.2.1]
  | matrix as bs =>
    rw [hashTail, hashTail, List.cons.injEq] at htail
    have hrows := map_rows_eq_of_eq ih (map_rows_of_rowHashes ideal ha.2 hb.2 htail.2)
    refine map_eq_of_map_eq (fun row _ row' _ hrow => ?_) hrows
    rw [hrow]
  | frame a a' b b' | transform a a' b b' | plane a a' b b' | axis a a' b b'
  | boundingBox a a' b b' =>
    simp only [hashTail, List.cons.injEq] at htail
    rw [hashParts, hashParts, ih a (by simp [children]) b (by simp [children]) htail.1,
      ih a' (by simp [children]) b' (by simp [children]) htail.2.1]
  | sampledField a b => exact sampledField_hashParts_of_hashTail ideal htail
  | structureInstance ai an av af bi bn bv bf =>
    simp only [hashTail, List.cons.injEq, sortKeyed_map] at htail
    obtain ⟨hn, hversion, hfields⟩ := htail
    have hnat := leBytes_inj av.toNat_lt bv.toNat_lt (ideal.of_injective hversion)
    have hkeys := keyedKeys_of_countedHashes ideal
      (fun v hv w hw => ih v (mem_of_mem_userFields (mem_of_mem_sorted hv)) w
        (mem_of_mem_userFields (mem_of_mem_sorted hw))) hfields
    rw [hashParts, hashParts, ideal.ofStr_injective hn, hnat, hkeys]
  | geometryHandle ar ah ak br bh bk =>
    simp only [hashTail, List.cons.injEq] at htail
    obtain ⟨hentity, hindex, hhash, -⟩ := htail
    have hnat := leBytes_inj ar.index.toNat_lt br.index.toNat_lt (ideal.of_injective hindex)
    rw [hashParts, hashParts, ideal.ofStr_injective hentity, hnat, ideal.of_injective hhash]
  | affineMap al tr bl bt =>
    rw [hashHead, hashHead, List.cons.injEq, floatBytes_inj] at hhead
    refine map_eq_of_map_eq ?_ hhead.2
    intro x _ y _ hxy
    rw [hxy]
  | selector a b =>
    have hchain : (selector a).contentHash = (selector b : Value H).contentHash := by
      rw [contentHash_eq_chain, contentHash_eq_chain, hhead, htail]
    have hhash : (a.contentHash : H) = b.contentHash := hchain
    rw [hashParts, hashParts, hhash]
  | direction ax ay az bx bY bz =>
    simp only [hashHead, List.cons.injEq, floatBytes_inj, List.map_cons] at hhead
    rw [hashParts, hashParts, hhead.2.1, hhead.2.2.1, hhead.2.2.2.1]
  | feature a b =>
    rw [hashTail, hashTail, List.cons.injEq] at htail
    rw [hashParts, hashParts, ideal.of_injective htail.1]

/-- Without collisions, values with the same hash read the same. -/
theorem hashKey_eq_of_contentHash {a b : Value H} (ha : a.WF) (hb : b.WF)
    (h : a.contentHash = b.contentHash) : a.hashKey = b.hashKey := by
  induction a using childInduct generalizing b with
  | step a ih =>
    rw [contentHash_eq_chain, contentHash_eq_chain] at h
    obtain ⟨hhead, htail⟩ := ideal.chain_inj h
    have htag : a.typeTag = b.typeTag := by
      rw [← tagOfHead_hashHead, ← tagOfHead_hashHead, hhead]
    have hparts := hashParts_eq_of_chain ideal (sameVariant_of_typeTag htag) ha.formed hb.formed
      (fun v hv w hw => ih v hv (ha.child hv) (hb.child hw)) hhead htail
    rw [hashKey_eq, hashKey_eq, htag, hparts]

end Collisionless

end Value

end Reify
