import Mathlib.Logic.Equiv.List
import Reify.Ir.ValueHash

/-!
# How equality, order and hash of values fit together

Equality, order and hash read one key: equality all of it, the order all but a type's
identity behind its text, the hash neither that nor a cell id's parts nor a NaN's payload.
Two values on which they disagree differ in nothing but such types or ids.

## Main definitions

* `Value.SameText`, `Value.fieldTypes`: what the order sees, and the types that it does not.
* `Value.SameReading`, `Value.names`: the same for the hash.
* `Value.withCanonicalNan`: every NaN replaced by one.
* `PlainHash`: byte strings as their own hashes.

## Main results

* `Value.comparisons_agree_iff`: equality and order are what they should be, and they
  agree exactly where equal texts mean equal types.
* `Value.contentHash_separates_iff`: the hash tells values apart exactly where equal texts
  mean equal types and ids.
-/

namespace Reify

open Foundation

/-! ## What a comparison does not see -/

namespace Atom

variable {H : Type}

/-- The type at a place, where there is one. -/
def type? : Atom H → Option Ty
  | type t => some t
  | _ => none

/-- The type or the cell id at a place, where there is one. -/
def name? : Atom H → Option (Ty ⊕ ValueCellId)
  | type t => some (.inl t)
  | cell id => some (.inr id)
  | _ => none

/-- A label with one NaN. -/
def canonical : Atom H → Atom H
  | float x => float x.canonical
  | a => a

theorem eq_of_text {a b : Atom H} (h : a.text = b.text) (htype : a.type? = b.type?) : a = b := by
  cases a
  all_goals
    cases b
    all_goals simp_all [text, type?]

theorem canonical_eq_of_hashText {a b : Atom H} (h : a.hashText = b.hashText)
    (hname : a.name? = b.name?) : a.canonical = b.canonical := by
  cases a
  all_goals
    cases b
    all_goals simp_all [hashText, name?, canonical]

theorem hashText_eq_of_canonical {a b : Atom H} (h : a.canonical = b.canonical) :
    a.hashText = b.hashText := by
  cases a
  all_goals
    cases b
    all_goals simp_all [hashText, canonical]

theorem name?_eq_of_canonical {a b : Atom H} (h : a.canonical = b.canonical) :
    a.name? = b.name? := by
  cases a
  all_goals
    cases b
    all_goals simp_all [name?, canonical]

end Atom

namespace Value

variable {H : Type} [ContentHashing H] [HashBits H]

/-- The values differ at most in types of fields, and those read the same. -/
def SameText (a b : Value H) : Prop := a.key.map Atom.text = b.key.map Atom.text

/-- The domain and codomain types of the fields in a value, place by place. -/
def fieldTypes (a : Value H) : List (Option Ty) := a.key.labels.map Atom.type?

/-- The values differ at most in the payloads of NaNs, and in types of fields and cell ids
of lambdas that read the same. -/
def SameReading (a b : Value H) : Prop := a.hashKey = b.hashKey

/-- The types of fields and the cell ids of lambdas in a value, place by place. -/
def names (a : Value H) : List (Option (Ty ⊕ ValueCellId)) := a.key.labels.map Atom.name?

end Value

/-! ## One NaN -/

namespace LeafQuery

/-- Every NaN replaced by one. -/
def withCanonicalNan : LeafQuery → LeafQuery
  | byNormal dir tolRad => byNormal (fun i => (dir i).canonical) tolRad.canonical
  | byArea minM2 maxM2 => byArea minM2.canonical maxM2.canonical
  | byLength minM maxM => byLength minM.canonical maxM.canonical
  | byHeight zM tolM => byHeight zM.canonical tolM.canonical
  | byParallel axis tolRad => byParallel (fun i => (axis i).canonical) tolRad.canonical
  | byPerpendicular axis tolRad => byPerpendicular (fun i => (axis i).canonical) tolRad.canonical
  | byExtremalBbox axisIndex max tolM => byExtremalBbox axisIndex max tolM.canonical
  | byExtremalCentroid axisIndex max tolM => byExtremalCentroid axisIndex max tolM.canonical
  | query => query

theorem contentHash_withCanonicalNan {H : Type} [ContentHashing H] (query : LeafQuery) :
    (query.withCanonicalNan.contentHash : H) = query.contentHash := by
  cases query
  all_goals simp [withCanonicalNan, contentHash, floatBytes]

end LeafQuery

mutual

/-- Every NaN replaced by one. -/
def SelectorValue.withCanonicalNan : SelectorValue → SelectorValue
  | .leaf kind target query => .leaf kind target query.withCanonicalNan
  | .union kind children => .union kind (childrenWithCanonicalNan children)
  | .intersect kind children => .intersect kind (childrenWithCanonicalNan children)
  | .difference kind a b => .difference kind a.withCanonicalNan b.withCanonicalNan

def childrenWithCanonicalNan : List SelectorValue → List SelectorValue
  | [] => []
  | child :: children => child.withCanonicalNan :: childrenWithCanonicalNan children

end

mutual

/-- A selector's hash has always seen one NaN only. -/
theorem SelectorValue.contentHash_withCanonicalNan {H : Type} [ContentHashing H] [HashBits H] :
    ∀ sv : SelectorValue, (sv.withCanonicalNan.contentHash : H) = sv.contentHash
  | .leaf kind target query => by
    rw [SelectorValue.withCanonicalNan, SelectorValue.contentHash, SelectorValue.contentHash,
      query.contentHash_withCanonicalNan]
  | .union kind children => by
    rw [SelectorValue.withCanonicalNan, SelectorValue.contentHash, SelectorValue.contentHash,
      (childHashes_withCanonicalNan (H := H) children).1,
      (childHashes_withCanonicalNan (H := H) children).2]
  | .intersect kind children => by
    rw [SelectorValue.withCanonicalNan, SelectorValue.contentHash, SelectorValue.contentHash,
      (childHashes_withCanonicalNan (H := H) children).1,
      (childHashes_withCanonicalNan (H := H) children).2]
  | .difference kind a b => by
    rw [SelectorValue.withCanonicalNan, SelectorValue.contentHash, SelectorValue.contentHash, a.contentHash_withCanonicalNan,
      b.contentHash_withCanonicalNan]

theorem childHashes_withCanonicalNan {H : Type} [ContentHashing H] [HashBits H] :
    ∀ children : List SelectorValue,
      (childHashes (childrenWithCanonicalNan children) : List H) = childHashes children ∧
        (childrenWithCanonicalNan children).length = children.length
  | [] => ⟨rfl, rfl⟩
  | child :: children => by
    obtain ⟨hhashes, hlength⟩ := childHashes_withCanonicalNan (H := H) children
    rw [childrenWithCanonicalNan, childHashes, childHashes, child.contentHash_withCanonicalNan,
      hhashes, List.length_cons, List.length_cons, hlength]
    exact ⟨rfl, rfl⟩

end

/-- Every NaN replaced by one. -/
def SampledField.withCanonicalNan (f : SampledField) : SampledField :=
  { f with
    boundsMin := f.boundsMin.map F64.canonical
    boundsMax := f.boundsMax.map F64.canonical
    spacing := f.spacing.map F64.canonical
    axisGrids := f.axisGrids.map (List.map F64.canonical)
    data := f.data.map F64.canonical }

namespace Value

section

variable {H : Type}

mutual

/-- Every NaN replaced by one, at any depth. -/
def withCanonicalNan : Value H → Value H
  | undef => undef
  | bool b => bool b
  | int i => int i
  | real x => real x.canonical
  | scalar siValue dimension => scalar siValue.canonical dimension
  | string s => string s
  | enum typeName variant payload => enum typeName variant (namedWithCanonicalNan payload)
  | list items => list (itemsWithCanonicalNan items)
  | set items => set (itemsWithCanonicalNan items)
  | map entries => map (entriesWithCanonicalNan entries)
  | option inner => option (optionWithCanonicalNan inner)
  | field domainType codomainType source inner =>
    field domainType codomainType source inner.withCanonicalNan
  | lambda params bodyHash captures => lambda params bodyHash (capturesWithCanonicalNan captures)
  | tensor items => tensor (itemsWithCanonicalNan items)
  | complex re im dimension => complex re.canonical im.canonical dimension
  | orientation w x y z => orientation w.canonical x.canonical y.canonical z.canonical
  | range lower upper lowerInclusive upperInclusive =>
    range (optionWithCanonicalNan lower) (optionWithCanonicalNan upper) lowerInclusive
      upperInclusive
  | point items => point (itemsWithCanonicalNan items)
  | vector items => vector (itemsWithCanonicalNan items)
  | matrix rows => matrix (rowsWithCanonicalNan rows)
  | frame a b => frame a.withCanonicalNan b.withCanonicalNan
  | transform a b => transform a.withCanonicalNan b.withCanonicalNan
  | plane a b => plane a.withCanonicalNan b.withCanonicalNan
  | axis a b => axis a.withCanonicalNan b.withCanonicalNan
  | boundingBox a b => boundingBox a.withCanonicalNan b.withCanonicalNan
  | sampledField f => sampledField f.withCanonicalNan
  | structureInstance typeId typeName version fields =>
    structureInstance typeId typeName version (namedWithCanonicalNan fields)
  | geometryHandle realizationRef upstreamValuesHash kernelHandle =>
    geometryHandle realizationRef upstreamValuesHash kernelHandle
  | affineMap linear translation =>
    affineMap (fun i j => (linear i j).canonical) fun i => (translation i).canonical
  | selector sv => selector sv.withCanonicalNan
  | direction x y z => direction x.canonical y.canonical z.canonical
  | feature fid => feature fid
termination_by structural x => x

def itemsWithCanonicalNan : List (Value H) → List (Value H)
  | [] => []
  | v :: vs => v.withCanonicalNan :: itemsWithCanonicalNan vs
termination_by structural x => x

def entriesWithCanonicalNan : List (Value H × Value H) → List (Value H × Value H)
  | [] => []
  | (k, v) :: es => (k.withCanonicalNan, v.withCanonicalNan) :: entriesWithCanonicalNan es
termination_by structural x => x

def rowsWithCanonicalNan : List (List (Value H)) → List (List (Value H))
  | [] => []
  | row :: rows => itemsWithCanonicalNan row :: rowsWithCanonicalNan rows
termination_by structural x => x

def optionWithCanonicalNan : Option (Value H) → Option (Value H)
  | .none => .none
  | .some v => .some v.withCanonicalNan
termination_by structural x => x

def namedWithCanonicalNan : List (String × Value H) → List (String × Value H)
  | [] => []
  | (name, v) :: es => (name, v.withCanonicalNan) :: namedWithCanonicalNan es
termination_by structural x => x

def capturesWithCanonicalNan : List (ValueCellId × Value H) → List (ValueCellId × Value H)
  | [] => []
  | (id, v) :: es => (id, v.withCanonicalNan) :: capturesWithCanonicalNan es
termination_by structural x => x

end

theorem itemsWithCanonicalNan_eq (items : List (Value H)) :
    itemsWithCanonicalNan items = items.map withCanonicalNan := by
  induction items with
  | nil => rfl
  | cons v vs ih => rw [itemsWithCanonicalNan, ih, List.map_cons]

theorem entriesWithCanonicalNan_eq (entries : List (Value H × Value H)) :
    entriesWithCanonicalNan entries =
      entries.map (Prod.map withCanonicalNan withCanonicalNan) := by
  induction entries with
  | nil => rfl
  | cons e es ih =>
    rw [entriesWithCanonicalNan, ih, List.map_cons]
    rfl

theorem rowsWithCanonicalNan_eq (rows : List (List (Value H))) :
    rowsWithCanonicalNan rows = rows.map (List.map withCanonicalNan) := by
  induction rows with
  | nil => rfl
  | cons row rows ih => rw [rowsWithCanonicalNan, ih, itemsWithCanonicalNan_eq, List.map_cons]

theorem namedWithCanonicalNan_eq (entries : List (String × Value H)) :
    namedWithCanonicalNan entries = entries.map (Prod.map id withCanonicalNan) := by
  induction entries with
  | nil => rfl
  | cons e es ih =>
    rw [namedWithCanonicalNan, ih, List.map_cons]
    rfl

theorem capturesWithCanonicalNan_eq (entries : List (ValueCellId × Value H)) :
    capturesWithCanonicalNan entries = entries.map (Prod.map id withCanonicalNan) := by
  induction entries with
  | nil => rfl
  | cons e es ih =>
    rw [capturesWithCanonicalNan, ih, List.map_cons]
    rfl

theorem children_withCanonicalNan (a : Value H) :
    a.withCanonicalNan.children = a.children.map withCanonicalNan := by
  cases a with
  | map entries =>
    simp only [withCanonicalNan, children, entriesWithCanonicalNan_eq, List.flatMap_map,
      List.map_flatMap]
    rfl
  | option inner =>
    cases inner
    all_goals rfl
  | range lower upper lowerInclusive upperInclusive =>
    cases lower
    all_goals
      cases upper
      all_goals rfl
  | matrix rows => simp [withCanonicalNan, children, rowsWithCanonicalNan_eq, List.map_flatten]
  | enum typeName variant payload =>
    simp [withCanonicalNan, children, namedWithCanonicalNan_eq]
  | structureInstance typeId typeName version fields =>
    simp [withCanonicalNan, children, namedWithCanonicalNan_eq]
  | lambda params bodyHash captures =>
    simp [withCanonicalNan, children, capturesWithCanonicalNan_eq]
  | list items | set items | tensor items | point items | vector items =>
    simp only [withCanonicalNan, children, itemsWithCanonicalNan_eq]
  | _ => rfl

theorem formed_withCanonicalNan {a : Value H} (h : a.Formed) : a.withCanonicalNan.Formed := by
  cases a with
  | structureInstance typeId typeName version fields =>
    rw [withCanonicalNan, Formed, namedWithCanonicalNan_eq, List.map_map]
    exact h
  | matrix rows =>
    rw [withCanonicalNan, Formed, rowsWithCanonicalNan_eq, List.length_map]
    refine ⟨h.1, ?_⟩
    intro row hrow
    obtain ⟨row', hrow', rfl⟩ := List.mem_map.mp hrow
    rw [List.length_map]
    exact h.2 row' hrow'
  | lambda params bodyHash captures => exact h
  | _ => trivial

theorem WF.withCanonicalNan {a : Value H} (h : a.WF) : a.withCanonicalNan.WF := by
  induction h with
  | mk formed _ ih =>
    refine .mk (formed_withCanonicalNan formed) ?_
    rw [children_withCanonicalNan]
    intro v hv
    obtain ⟨w, hw, rfl⟩ := List.mem_map.mp hv
    exact ih w hw

end

variable {H : Type} [ContentHashing H] [HashBits H]

omit [ContentHashing H] [HashBits H] in
theorem floatsKey_canonical (xs : List F64) :
    floatsKey (H := H) (xs.map F64.canonical) = (floatsKey xs).map Atom.canonical := by
  simp [floatsKey, Atom.canonical]

theorem keyedTrees_withCanonicalNan {K : Type} {label : K → Atom H}
    (hlabel : ∀ k, (label k).canonical = label k) {entries : List (K × Value H)}
    (ih : ∀ v ∈ entries.map Prod.snd, v.withCanonicalNan.key = v.key.map Atom.canonical) :
    keyedTrees label ((entries.map (Prod.map id withCanonicalNan)).map (Prod.map id key)) =
      (keyedTrees label (entries.map (Prod.map id key))).map (RoseTree.map Atom.canonical) := by
  simp only [keyedTrees, List.flatMap_map, List.map_flatMap]
  refine congrArg List.flatten (List.map_congr_left fun e he => ?_)
  have hvalue := ih e.2 (List.mem_map_of_mem he)
  simp only [Prod.map, id, List.map_cons, List.map_nil, RoseTree.map_leaf, hlabel, hvalue]

/-- Replacing the NaNs of a value replaces those of its key. -/
theorem key_withCanonicalNan (a : Value H) :
    a.withCanonicalNan.key = a.key.map Atom.canonical := by
  induction a using childInduct with
  | step a ih =>
    have hitems {items : List (Value H)}
        (ih : ∀ v ∈ items, v.withCanonicalNan.key = v.key.map Atom.canonical) :
        keyItems (itemsWithCanonicalNan items) =
          (keyItems items).map (RoseTree.map Atom.canonical) := by
      rw [itemsWithCanonicalNan_eq, keyItems_eq, keyItems_eq, List.map_map, List.map_map]
      exact List.map_congr_left ih
    have hsorted {entries : List (String × Value H)}
        (ih : ∀ v ∈ entries.map Prod.snd, v.withCanonicalNan.key = v.key.map Atom.canonical) :
        keyedTrees .str (sortKeyed strCmp
            ((entries.map (Prod.map id withCanonicalNan)).map (Prod.map id key))) =
          (keyedTrees .str (sortKeyed strCmp (entries.map (Prod.map id key)))).map
            (RoseTree.map Atom.canonical) := by
      rw [sortKeyed_map, sortKeyed_map, sortKeyed_map]
      exact keyedTrees_withCanonicalNan (fun _ => rfl) fun v hv => ih v (mem_of_mem_sorted hv)
    cases a with
    | enum typeName variant payload =>
      simp only [withCanonicalNan, key, namedWithCanonicalNan_eq, keyNamed_eq, RoseTree.map_node,
        List.map_cons, RoseTree.map_leaf, Atom.canonical]
      rw [hsorted ih]
    | list items | set items | tensor items | point items | vector items =>
      simp only [withCanonicalNan, key, RoseTree.map_node, Atom.canonical]
      exact congrArg _ (hitems ih)
    | map entries =>
      simp only [withCanonicalNan, key, RoseTree.map_node, Atom.canonical, keyEntries_eq,
        entriesWithCanonicalNan_eq, List.flatMap_map, List.map_flatMap]
      refine congrArg _ (congrArg List.flatten (List.map_congr_left fun e he => ?_))
      have hkey := ih e.1 (List.mem_flatMap.mpr ⟨e, he, by simp⟩)
      have hval := ih e.2 (List.mem_flatMap.mpr ⟨e, he, by simp⟩)
      simp only [Prod.map, hkey, hval, List.map_cons, List.map_nil]
    | option inner =>
      cases inner with
      | none => rfl
      | some v =>
        have hv := ih v (by simp [children])
        simp [withCanonicalNan, optionWithCanonicalNan, key, keyOption, Atom.canonical, hv]
    | field domainType codomainType source inner =>
      have hinner := ih inner (by simp [children])
      simp [withCanonicalNan, key, Atom.canonical, hinner]
    | lambda params bodyHash captures =>
      simp only [withCanonicalNan, key, capturesWithCanonicalNan_eq, keyCaptures_eq,
        RoseTree.map_node, List.map_cons, RoseTree.map_leaf, Atom.canonical, sortKeyed_map,
        List.map_flatMap, List.map_nil]
      rw [keyedTrees_withCanonicalNan (fun _ => rfl) fun v hv => ih v (mem_of_mem_sorted hv)]
    | range lower upper lowerInclusive upperInclusive =>
      cases lower with
      | none =>
        cases upper with
        | none => simp [withCanonicalNan, optionWithCanonicalNan, key, keyOption, Atom.canonical]
        | some w =>
          have hw := ih w (by simp [children])
          simp [withCanonicalNan, optionWithCanonicalNan, key, keyOption, Atom.canonical, hw,
            normalizeRangeFlags]
      | some v =>
        have hv := ih v (by simp [children])
        cases upper with
        | none =>
          simp [withCanonicalNan, optionWithCanonicalNan, key, keyOption, Atom.canonical, hv,
            normalizeRangeFlags]
        | some w =>
          have hw := ih w (by simp [children])
          simp [withCanonicalNan, optionWithCanonicalNan, key, keyOption, Atom.canonical, hv, hw,
            normalizeRangeFlags]
    | matrix rows =>
      simp only [withCanonicalNan, key, RoseTree.map_node, Atom.canonical, keyRows_eq,
        rowsWithCanonicalNan_eq, List.map_map]
      refine congrArg _ (List.map_congr_left fun row hrow => ?_)
      simp only [Function.comp_apply, RoseTree.map_node, Atom.canonical, List.map_map]
      refine congrArg _ (List.map_congr_left fun v hv => ?_)
      exact ih v (List.mem_flatten.mpr ⟨row, hrow, hv⟩)
    | frame a b | transform a b | plane a b | axis a b | boundingBox a b =>
      have ha := ih a (by simp [children])
      have hb := ih b (by simp [children])
      simp [withCanonicalNan, key, Atom.canonical, ha, hb]
    | sampledField f =>
      simp [withCanonicalNan, key, SampledField.withCanonicalNan, SampledField.key,
        floatsKey_canonical, Atom.canonical]
    | structureInstance typeId typeName version fields =>
      simp only [withCanonicalNan, key, namedWithCanonicalNan_eq, keyNamed_eq, RoseTree.map_node,
        List.map_cons, RoseTree.map_leaf, Atom.canonical, userFields_map]
      rw [hsorted fun v hv => ih v (mem_of_mem_userFields hv)]
    | affineMap linear translation =>
      simp [withCanonicalNan, key, Atom.canonical, affineEntries, List.map_flatMap,
        Function.comp_def]
    | selector sv => simp [withCanonicalNan, key, Atom.canonical, sv.contentHash_withCanonicalNan]
    | _ => simp [withCanonicalNan, key, Atom.canonical]

/-! ## Equality and order -/

instance instTransCmpKeyCmp : Std.TransCmp (keyCmp (H := H)) :=
  have : Std.TransCmp Atom.codeCmp :=
    inferInstanceAs (Std.TransCmp (List.compareLex (List.compareLex compare)))
  transCmp_comap (RoseTree.map Atom.code) (RoseTree.cmp Atom.codeCmp)

variable {a b c : Value H}

/-- The order sees all but the types behind their texts. -/
theorem cmp_eq_eq_iff : a.cmp b = some .eq ↔ a.SameText b := by
  have hlawful : Std.LawfulEqCmp Atom.codeCmp :=
    inferInstanceAs (Std.LawfulEqCmp (List.compareLex (List.compareLex compare)))
  rw [cmp_eq_key, Option.some.injEq, keyCmp, Std.LawfulEqCmp.compare_eq_iff_eq, SameText]
  constructor
  · exact RoseTree.map_eq_of_map_eq fun _ _ => Atom.code_eq_iff.mp
  · exact RoseTree.map_eq_of_map_eq fun _ _ => Atom.code_eq_iff.mpr

theorem key_eq_iff : a.key = b.key ↔ a.SameText b ∧ a.fieldTypes = b.fieldTypes := by
  constructor
  · intro h
    exact ⟨congrArg _ h, congrArg (fun t => t.labels.map Atom.type?) h⟩
  · rintro ⟨htext, htypes⟩
    have hmap := RoseTree.map_eq_of_labels (e := id) (fun _ _ => Atom.eq_of_text) _ _ htext htypes
    rwa [RoseTree.map_id_eq, RoseTree.map_id_eq] at hmap

/-- The order is total and never panics. -/
theorem cmp_swap (a b : Value H) : ∃ o, a.cmp b = some o ∧ b.cmp a = some o.swap := by
  have hswap : keyCmp b.key a.key = (keyCmp a.key b.key).swap := Std.OrientedCmp.eq_swap
  refine ⟨keyCmp a.key b.key, cmp_eq_key a b, ?_⟩
  rw [cmp_eq_key, hswap]

theorem cmp_isLE_trans {o o' : Ordering} (hab : a.cmp b = some o) (hbc : b.cmp c = some o')
    (ho : o.isLE = true) (ho' : o'.isLE = true) : ∃ o'', a.cmp c = some o'' ∧ o''.isLE = true := by
  rw [cmp_eq_key, Option.some.injEq] at hab hbc
  rw [← hab] at ho
  rw [← hbc] at ho'
  exact ⟨_, cmp_eq_key a c, Std.TransCmp.isLE_trans ho ho'⟩

/-- Equal values have equal hashes. -/
theorem contentHash_eq_of_key (h : a.key = b.key) : a.contentHash = b.contentHash :=
  contentHash_eq_of_hashKey (congrArg (RoseTree.map Atom.hashText) h)

variable [DecidableEq H]

/-- Equality is an equivalence relation whose classes have one hash; the order is total,
transitive and never panics; and the two agree on a pair exactly if no types of its fields
differ behind equal texts while the rest is the same. -/
theorem comparisons_agree_iff (ha : a.WF) (hb : b.WF) (hc : c.WF) :
    a.beq a = true ∧ (a.beq b = true → b.beq a = true) ∧
      (a.beq b = true → b.beq c = true → a.beq c = true) ∧
      (∃ o, a.cmp b = some o ∧ b.cmp a = some o.swap) ∧
      (∀ o o', a.cmp b = some o → b.cmp c = some o' → o.isLE = true → o'.isLE = true →
        ∃ o'', a.cmp c = some o'' ∧ o''.isLE = true) ∧
      (a.beq b = true → a.contentHash = b.contentHash) ∧
      ((a.cmp b = some .eq ↔ a.beq b = true) ↔ (a.SameText b → a.fieldTypes = b.fieldTypes)) := by
  rw [beq_iff_key ha ha, beq_iff_key ha hb, beq_iff_key hb ha, beq_iff_key hb hc, beq_iff_key ha hc]
  refine ⟨rfl, Eq.symm, Eq.trans, cmp_swap a b, fun o o' => cmp_isLE_trans, contentHash_eq_of_key, ?_⟩
  rw [cmp_eq_eq_iff, key_eq_iff]
  tauto

/-! ## Hash -/

omit [DecidableEq H] in
theorem key_withCanonicalNan_eq_iff :
    a.withCanonicalNan.key = b.withCanonicalNan.key ↔ a.SameReading b ∧ a.names = b.names := by
  rw [key_withCanonicalNan, key_withCanonicalNan]
  constructor
  · intro h
    refine ⟨RoseTree.map_eq_of_map_eq (fun _ _ => Atom.hashText_eq_of_canonical) h, ?_⟩
    have hlabels := congrArg RoseTree.labels h
    rw [RoseTree.labels_map, RoseTree.labels_map] at hlabels
    exact map_eq_of_map_eq (fun _ _ _ _ => Atom.name?_eq_of_canonical) hlabels
  · rintro ⟨hreading, hnames⟩
    exact RoseTree.map_eq_of_labels (fun _ _ => Atom.canonical_eq_of_hashText) _ _ hreading hnames

/-- Without collisions, the hash tells two values apart, up to the payloads of NaNs, exactly
if no types of fields or cell ids of lambdas differ behind equal texts while the rest is the
same. -/
theorem contentHash_separates_iff (ideal : Collisionless H) (ha : a.WF) (hb : b.WF) :
    (a.contentHash = b.contentHash → a.withCanonicalNan.beq b.withCanonicalNan = true) ↔
      (a.SameReading b → a.names = b.names) := by
  have hhash : a.contentHash = b.contentHash ↔ a.SameReading b :=
    ⟨hashKey_eq_of_contentHash ideal ha hb, contentHash_eq_of_hashKey⟩
  rw [beq_iff_key ha.withCanonicalNan hb.withCanonicalNan, hhash, key_withCanonicalNan_eq_iff]
  tauto

end Value

/-! ## Hashes without collisions -/

/-- A byte string, or a pair with the length of its first part, as its own hash. -/
structure PlainHash where
  code : List Nat
deriving DecidableEq

namespace PlainHash

instance : ContentHashing PlainHash where
  of bytes := ⟨0 :: bytes.map UInt8.toNat⟩
  combine a b := ⟨1 :: a.code.length :: (a.code ++ b.code)⟩
  zero := ⟨[]⟩

instance : HashBits PlainHash where
  toNat h := Encodable.encode h.code
  toNat_injective := by
    rintro ⟨a⟩ ⟨b⟩ h
    exact congrArg mk (Encodable.encode_injective h)

theorem collisionless : Collisionless PlainHash where
  of_injective := by
    intro a b h
    have hcode : a.map UInt8.toNat = b.map UInt8.toNat := (List.cons.inj (PlainHash.mk.inj h)).2
    exact List.map_injective_iff.mpr (fun _ _ => UInt8.toNat_inj.mp) hcode
  combine_injective := by
    rintro ⟨a⟩ ⟨b⟩ ⟨c⟩ ⟨d⟩ h
    obtain ⟨hlength, hcode⟩ := List.cons.inj (List.cons.inj (PlainHash.mk.inj h)).2
    obtain ⟨rfl, rfl⟩ := List.append_inj hcode hlength
    exact ⟨rfl, rfl⟩
  combine_ne_of a b bytes h := by
    have hhead := (List.cons.inj (PlainHash.mk.inj h)).1
    omega

end PlainHash

/-! ## Fields over types of one text -/

namespace Value

/-- A field over the domain. -/
def fieldOver (domain : Ty) : Value PlainHash :=
  field domain .int .analytical (lambda [] ⟨[]⟩ [])

theorem fieldOver_wf (domain : Ty) : (fieldOver domain).WF := by
  refine .mk trivial fun v hv => ?_
  obtain rfl := List.mem_singleton.mp hv
  refine .mk (by simp [Formed]) fun w hw => ?_
  simp [children] at hw

/-- A type parameter and a structure of one name: the order calls the fields equal, and they
are not. -/
theorem fieldOver_disagrees :
    ¬ ((fieldOver (.typeParam "T")).cmp (fieldOver (.structureRef "T")) = some .eq ↔
      (fieldOver (.typeParam "T")).beq (fieldOver (.structureRef "T")) = true) := by
  have hcmp : (fieldOver (.typeParam "T")).cmp (fieldOver (.structureRef "T")) = some .eq := by
    rw [cmp_eq_eq_iff]
    simp [SameText, fieldOver, key, Atom.text, Ty.display]
  have hbeq : (fieldOver (.typeParam "T")).beq (fieldOver (.structureRef "T")) = false := by
    simp [fieldOver, beq]
  rw [hbeq]
  simp [hcmp]

theorem comparisons_agree_iff_fieldOver :
    (fieldOver .bool).cmp (fieldOver .int) = some .eq ↔
      (fieldOver .bool).beq (fieldOver .int) = true := by
  have hlaws := comparisons_agree_iff (fieldOver_wf .bool) (fieldOver_wf .int) (fieldOver_wf .bool)
  refine hlaws.2.2.2.2.2.2.mpr fun h => ?_
  simp [SameText, fieldOver, key, Atom.text, Ty.display, RoseTree.leaf_inj] at h

/-- The same two fields have one hash. -/
theorem fieldOver_hash_collides :
    ¬ ((fieldOver (.typeParam "T")).contentHash = (fieldOver (.structureRef "T")).contentHash →
      (fieldOver (.typeParam "T")).withCanonicalNan.beq
        (fieldOver (.structureRef "T")).withCanonicalNan = true) := by
  intro h
  have hhash : (fieldOver (.typeParam "T")).contentHash =
      (fieldOver (.structureRef "T")).contentHash := by
    simp [fieldOver, contentHash, Ty.display]
  have hbeq := h hhash
  simp [fieldOver, withCanonicalNan, beq] at hbeq

/-- Two fields whose domains read differently have different hashes. -/
theorem contentHash_separates_iff_fieldOver :
    (fieldOver .bool).contentHash ≠ (fieldOver .int).contentHash := by
  intro hhash
  have hbeq := (contentHash_separates_iff PlainHash.collisionless (fieldOver_wf .bool)
    (fieldOver_wf .int)).mpr (fun h => by
      simp [SameReading, hashKey, fieldOver, key, Atom.hashText, Ty.display, RoseTree.leaf_inj]
        at h) hhash
  simp [fieldOver, withCanonicalNan, beq] at hbeq

end Value

end Reify
