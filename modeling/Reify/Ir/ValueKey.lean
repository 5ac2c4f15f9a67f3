import Reify.Foundation.RoseTree
import Reify.Ir.RuntimeValue

/-!
# The key of a value

A tree of labels in which a value's parts stand in the order that the comparison visits
them, keyed parts sorted.  Equality is equality of keys, and the order is the
lexicographic order of the keys' codes.  A code shows a type only as its text.

## Main definitions

* `Atom`, with `Atom.code` and `Atom.text`.
* `Value.key`.

## Main results

* `Value.beq_iff_key`: two values are equal exactly if their keys are.
* `Value.cmp_eq_key`: the comparison compares the codes of the keys.
-/

namespace Reify

open Foundation

/-! ## Labels -/

/-- What a single place of a value holds. -/
inductive Atom (H : Type) where
  | nat (n : Nat)
  | int (i : Int)
  | str (s : String)
  | float (x : F64)
  | dimension (d : DimensionVector)
  | type (t : Ty)
  | cell (id : ValueCellId)
  | hash (h : H)
  | bytes (bs : List UInt8)

theorem byteCode_injective : Function.Injective byteCode :=
  List.map_injective_iff.mpr fun _ _ h => UInt8.toNat_inj.mp (Int.ofNat_inj.mp h)

/-- The bytes of a text as numbers. -/
def strCode (s : String) : List Int := byteCode (utf8 s)

theorem strCode_injective : Function.Injective strCode :=
  byteCode_injective.comp utf8_injective

theorem DimensionVector.code_injective : Function.Injective DimensionVector.code := by
  intro d e h
  let block (r : Rational) : List Int := [r.num.toInt, r.den.toInt]
  have hblock : Function.Injective block := by
    rintro ⟨num, den, _, _⟩ ⟨num', den', _, _⟩ hrs
    simp only [block, List.cons.injEq, Int16.toInt_inj, and_true] at hrs
    obtain ⟨rfl, rfl⟩ := hrs
    rfl
  have hflat (d : DimensionVector) : d.code = ((List.finRange 10).map d.exps).flatMap block := by
    rw [List.flatMap_map, code]
  rw [hflat, hflat] at h
  have hmap := List.map_injective_iff.mpr hblock
    (map_eq_of_flatMap_eq (by decide : 0 < 2) (fun _ => rfl) h)
  cases d
  cases e
  exact congrArg DimensionVector.mk
    (funext fun i => List.map_inj_left.mp hmap i (List.mem_finRange i))

namespace Atom

variable {H : Type} [HashBits H]

/-- The numbers by which a label is ordered. -/
def code : Atom H → List (List Int)
  | nat n => [[0], [(n : Int)]]
  | int i => [[1], [i]]
  | str s => [[2], strCode s]
  | float x => [[3], [x.totalKey]]
  | dimension d => [[4], d.code]
  | type t => [[2], strCode t.display]
  | cell id => [[5], strCode id.entity, strCode id.member]
  | hash h => [[6], [(HashBits.toNat h : Int)]]
  | bytes bs => [[7], byteCode bs]

/-- A label with a type replaced by its text. -/
def text : Atom H → Atom H
  | type t => str t.display
  | a => a

/-- The order of codes. -/
def codeCmp : List (List Int) → List (List Int) → Ordering :=
  List.compareLex (List.compareLex compare)

section

variable (n m : Nat) (i j : Int) (s s' : String) (x y : F64) (d e : DimensionVector) (t u : Ty)
  (id id' : ValueCellId) (h h' : H) (bs bs' : List UInt8)

@[simp] theorem codeCmp_nat : codeCmp (nat (H := H) n).code (nat (H := H) m).code = compare n m := by
  have hcast : compare (n : Int) m = compare n m := by
    rcases Nat.lt_trichotomy n m with h | h | h
    · rw [compare_lt_iff_lt.mpr h, compare_lt_iff_lt.mpr (Int.ofNat_lt.mpr h)]
    · rw [h, compare_eq_iff_eq.mpr rfl, compare_eq_iff_eq.mpr rfl]
    · rw [compare_gt_iff_gt.mpr h, compare_gt_iff_gt.mpr (Int.ofNat_lt.mpr h)]
  simp [codeCmp, code, List.compareLex_cons_cons, List.compareLex_nil_nil, hcast]

@[simp] theorem codeCmp_int : codeCmp (int (H := H) i).code (int (H := H) j).code = compare i j := by
  simp [codeCmp, code, List.compareLex_cons_cons, List.compareLex_nil_nil]

@[simp] theorem codeCmp_str : codeCmp (str (H := H) s).code (str (H := H) s').code = strCmp s s' := by
  simp [codeCmp, code, List.compareLex_cons_cons, List.compareLex_nil_nil, strCmp, bytesCmp, strCode]

@[simp] theorem codeCmp_float :
    codeCmp (float (H := H) x).code (float (H := H) y).code = x.totalCmp y := by
  simp [codeCmp, code, List.compareLex_cons_cons, List.compareLex_nil_nil, F64.totalCmp]

@[simp] theorem codeCmp_dimension :
    codeCmp (dimension (H := H) d).code (dimension (H := H) e).code = d.cmp e := by
  simp [codeCmp, code, List.compareLex_cons_cons, List.compareLex_nil_nil, DimensionVector.cmp]

@[simp] theorem codeCmp_type :
    codeCmp (type (H := H) t).code (type (H := H) u).code = strCmp t.display u.display := by
  simp [codeCmp, code, List.compareLex_cons_cons, List.compareLex_nil_nil, strCmp, bytesCmp, strCode]

@[simp] theorem codeCmp_cell :
    codeCmp (cell (H := H) id).code (cell (H := H) id').code = id.cmp id' := by
  simp [codeCmp, code, List.compareLex_cons_cons, List.compareLex_nil_nil, ValueCellId.cmp, strCmp,
    bytesCmp, strCode]

@[simp] theorem codeCmp_hash :
    codeCmp (hash h).code (hash h').code = compare (HashBits.toNat h) (HashBits.toNat h') :=
  codeCmp_nat (H := H) _ _

@[simp] theorem codeCmp_bytes :
    codeCmp (bytes (H := H) bs).code (bytes (H := H) bs').code = bytesCmp bs bs' := by
  simp [codeCmp, code, List.compareLex_cons_cons, List.compareLex_nil_nil, bytesCmp]

end

/-- A code shows a label's text and no more. -/
theorem code_eq_iff {a b : Atom H} : a.code = b.code ↔ a.text = b.text := by
  have hcell (x y : ValueCellId) : x = y ↔ x.entity = y.entity ∧ x.member = y.member := by
    cases x
    cases y
    rw [ValueCellId.mk.injEq]
  cases a
  all_goals
    cases b
    all_goals simp [code, text, strCode_injective.eq_iff, F64.totalKey_injective.eq_iff,
      DimensionVector.code_injective.eq_iff, byteCode_injective.eq_iff, hcell,
      HashBits.toNat_injective.eq_iff]

end Atom

/-! ## Keys -/

/-- A keyed sequence as trees, each key before its tree. -/
def keyedTrees {K H : Type} (label : K → Atom H) (entries : List (K × RoseTree (Atom H))) :
    List (RoseTree (Atom H)) :=
  entries.flatMap fun e => [.leaf (label e.1), e.2]

/-- The floats of a run with their number. -/
def floatsKey {H : Type} (xs : List F64) : RoseTree (Atom H) :=
  .node (.nat xs.length) (xs.map fun x => .leaf (.float x))

def SampledField.key {H : Type} (f : SampledField) : List (RoseTree (Atom H)) :=
  [.leaf (.str f.name), .leaf (.str f.kind.debug), floatsKey f.boundsMin, floatsKey f.boundsMax,
    floatsKey f.spacing, .node (.nat f.axisGrids.length) (f.axisGrids.map floatsKey),
    .leaf (.str f.interpolation.debug), floatsKey f.data]

namespace Value

variable {H : Type} [ContentHashing H] [HashBits H]

mutual

/-- The key: the tag, then the parts in the order of their comparison. -/
def key : Value H → RoseTree (Atom H)
  | undef => .node (.nat 0) []
  | bool b => .node (.nat 1) [.leaf (.nat b.toNat)]
  | int i => .node (.nat 2) [.leaf (.int i.toInt)]
  | real x => .node (.nat 3) [.leaf (.float x)]
  | scalar x d => .node (.nat 4) [.leaf (.dimension d), .leaf (.float x)]
  | string s => .node (.nat 5) [.leaf (.str s)]
  | enum typeName variant payload =>
    .node (.nat 6) (.leaf (.str typeName) :: .leaf (.str variant) ::
      keyedTrees .str (sortKeyed strCmp (keyNamed payload)))
  | list items => .node (.nat 7) (keyItems items)
  | set items => .node (.nat 8) (keyItems items)
  | map entries => .node (.nat 9) (keyEntries entries)
  | option inner => .node (.nat 10) (keyOption inner)
  | field domainType codomainType source inner =>
    .node (.nat 11) [.leaf (.type domainType), .leaf (.type codomainType),
      .leaf (.str source.debug), inner.key]
  | lambda params bodyHash captures =>
    .node (.nat 12) (.node (.nat 0) (params.flatMap fun p => [.leaf (.str p.1), .leaf (.cell p.2)])
      :: .leaf (.hash bodyHash) ::
        keyedTrees .cell (sortKeyed ValueCellId.cmp (keyCaptures captures)))
  | tensor items => .node (.nat 13) (keyItems items)
  | complex re im d => .node (.nat 14) [.leaf (.dimension d), .leaf (.float re), .leaf (.float im)]
  | orientation w x y z =>
    .node (.nat 15) [.leaf (.float w), .leaf (.float x), .leaf (.float y), .leaf (.float z)]
  | range lower upper lowerInclusive upperInclusive =>
    let flags := normalizeRangeFlags lower upper lowerInclusive upperInclusive
    .node (.nat 16) [.leaf (.nat flags.1.toNat), .node (.nat 0) (keyOption lower),
      .leaf (.nat flags.2.toNat), .node (.nat 0) (keyOption upper)]
  | point items => .node (.nat 17) (keyItems items)
  | vector items => .node (.nat 18) (keyItems items)
  | matrix rows => .node (.nat 19) (keyRows rows)
  | frame a b => .node (.nat 20) [a.key, b.key]
  | transform a b => .node (.nat 21) [a.key, b.key]
  | plane a b => .node (.nat 22) [a.key, b.key]
  | axis a b => .node (.nat 23) [a.key, b.key]
  | boundingBox a b => .node (.nat 24) [a.key, b.key]
  | sampledField f => .node (.nat 25) f.key
  | structureInstance _ typeName version fields =>
    .node (.nat 26) (.leaf (.str typeName) :: .leaf (.nat version.toNat) ::
      keyedTrees .str (sortKeyed strCmp (userFields (keyNamed fields))))
  | geometryHandle realizationRef upstreamValuesHash _ =>
    .node (.nat 27) [.leaf (.str realizationRef.entity), .leaf (.nat realizationRef.index.toNat),
      .leaf (.bytes upstreamValuesHash.toList)]
  | affineMap linear translation =>
    .node (.nat 28) ((affineEntries linear translation).map fun x => .leaf (.float x))
  | selector sv => .node (.nat 29) [.leaf (.hash sv.contentHash)]
  | direction x y z => .node (.nat 30) [.leaf (.float x), .leaf (.float y), .leaf (.float z)]
  | feature fid => .node (.nat 31) [.leaf (.bytes fid.contentHashBytes)]
termination_by structural x => x

def keyItems : List (Value H) → List (RoseTree (Atom H))
  | [] => []
  | v :: vs => v.key :: keyItems vs
termination_by structural x => x

def keyEntries : List (Value H × Value H) → List (RoseTree (Atom H))
  | [] => []
  | (k, v) :: es => k.key :: v.key :: keyEntries es
termination_by structural x => x

def keyRows : List (List (Value H)) → List (RoseTree (Atom H))
  | [] => []
  | row :: rows => .node (.nat 0) (keyItems row) :: keyRows rows
termination_by structural x => x

def keyOption : Option (Value H) → List (RoseTree (Atom H))
  | .none => []
  | .some v => [v.key]
termination_by structural x => x

def keyNamed : List (String × Value H) → List (String × RoseTree (Atom H))
  | [] => []
  | (name, v) :: es => (name, v.key) :: keyNamed es
termination_by structural x => x

def keyCaptures : List (ValueCellId × Value H) → List (ValueCellId × RoseTree (Atom H))
  | [] => []
  | (id, v) :: es => (id, v.key) :: keyCaptures es
termination_by structural x => x

end

/-! ### The parts of a key -/

theorem keyItems_eq (items : List (Value H)) : keyItems items = items.map key := by
  induction items with
  | nil => rfl
  | cons v vs ih => rw [keyItems, ih, List.map_cons]

theorem keyEntries_eq (entries : List (Value H × Value H)) :
    keyEntries entries = entries.flatMap fun e => [e.1.key, e.2.key] := by
  induction entries with
  | nil => rfl
  | cons e es ih =>
    rw [keyEntries, ih, List.flatMap_cons]
    rfl

theorem keyRows_eq (rows : List (List (Value H))) :
    keyRows rows = rows.map fun row => .node (.nat 0) (row.map key) := by
  induction rows with
  | nil => rfl
  | cons row rows ih => rw [keyRows, ih, keyItems_eq, List.map_cons]

theorem keyNamed_eq (entries : List (String × Value H)) :
    keyNamed entries = entries.map (Prod.map id key) := by
  induction entries with
  | nil => rfl
  | cons e es ih =>
    rw [keyNamed, ih, List.map_cons]
    rfl

theorem keyCaptures_eq (entries : List (ValueCellId × Value H)) :
    keyCaptures entries = entries.map (Prod.map id key) := by
  induction entries with
  | nil => rfl
  | cons e es ih =>
    rw [keyCaptures, ih, List.map_cons]
    rfl

theorem userFields_map {B C : Type} (f : B → C) (entries : List (String × B)) :
    userFields (entries.map (Prod.map id f)) = (userFields entries).map (Prod.map id f) := by
  rw [userFields, userFields, List.filter_map]
  rfl

theorem mem_userFields {B : Type} {fields : List (String × B)} {e : String × B} :
    e ∈ userFields fields ↔ e ∈ fields ∧ e.1 ∉ overlayKeys := by
  rw [userFields, List.mem_filter, decide_eq_true_eq]

theorem userFields_cons {B : Type} (e : String × B) (fields : List (String × B)) :
    userFields (e :: fields) =
      if e.1 ∈ overlayKeys then userFields fields else e :: userFields fields := by
  rw [userFields, List.filter_cons]
  by_cases he : e.1 ∈ overlayKeys
  · rw [if_pos he, if_neg (by simp [he]), userFields]
  · rw [if_neg he, if_pos (by simp [he]), userFields]

omit [ContentHashing H] [HashBits H] in
theorem keyedTrees_inj {K : Type} {label : K → Atom H} (hlabel : Function.Injective label)
    {as bs : List (K × RoseTree (Atom H))} :
    keyedTrees label as = keyedTrees label bs ↔ as = bs := by
  constructor
  · intro h
    have hblocks := map_eq_of_flatMap_eq (by decide : 0 < 2) (fun _ => rfl) h
    refine List.map_injective_iff.mpr ?_ hblocks
    intro x y hxy
    simp only [List.cons.injEq, RoseTree.leaf, RoseTree.node.injEq, hlabel.eq_iff, and_true] at hxy
    exact Prod.ext hxy.1 hxy.2
  · rintro rfl
    rfl

/-! ### Equality -/

section

variable [DecidableEq H]

theorem beqNamed_eq (entries : List (String × Value H)) :
    beqNamed entries = entries.map (Prod.map id beq) := by
  induction entries with
  | nil => rfl
  | cons e es ih =>
    rw [beqNamed, ih, List.map_cons]
    rfl

theorem beqCaptures_eq (entries : List (ValueCellId × Value H)) :
    beqCaptures entries = entries.map (Prod.map id beq) := by
  induction entries with
  | nil => rfl
  | cons e es ih =>
    rw [beqCaptures, ih, List.map_cons]
    rfl

/-- Equality decides whether the keys are equal. -/
def BeqKey (v w : Value H) : Prop := v.beq w = true ↔ v.key = w.key

theorem beqItems_iff {as bs : List (Value H)} (h : ∀ v ∈ as, ∀ w ∈ bs, BeqKey v w) :
    beqItems as bs = true ↔ keyItems as = keyItems bs := by
  induction as generalizing bs with
  | nil => cases bs <;> simp [beqItems, keyItems]
  | cons a as ih =>
    cases bs with
    | nil => simp [beqItems, keyItems]
    | cons b bs =>
      have hhead : a.beq b = true ↔ a.key = b.key := h a List.mem_cons_self b List.mem_cons_self
      have htail := ih fun v hv w hw => h v (List.mem_cons_of_mem a hv) w (List.mem_cons_of_mem b hw)
      rw [beqItems, keyItems, keyItems, Bool.and_eq_true, hhead, htail, List.cons.injEq]

theorem beqEntries_iff {as bs : List (Value H × Value H)}
    (h : ∀ v ∈ as.flatMap fun e => [e.1, e.2], ∀ w ∈ bs.flatMap fun e => [e.1, e.2], BeqKey v w) :
    beqEntries as bs = true ↔ keyEntries as = keyEntries bs := by
  induction as generalizing bs with
  | nil => cases bs <;> simp [beqEntries, keyEntries]
  | cons a as ih =>
    cases bs with
    | nil => simp [beqEntries, keyEntries]
    | cons b bs =>
      simp only [List.flatMap_cons] at h
      have hkey : a.1.beq b.1 = true ↔ a.1.key = b.1.key := h _ (by simp) _ (by simp)
      have hval : a.2.beq b.2 = true ↔ a.2.key = b.2.key := h _ (by simp) _ (by simp)
      have htail := ih fun v hv w hw =>
        h v (List.mem_append_right _ hv) w (List.mem_append_right _ hw)
      rw [beqEntries, keyEntries, keyEntries, Bool.and_eq_true, Bool.and_eq_true, hkey, hval, htail,
        List.cons.injEq, List.cons.injEq, and_assoc]

theorem beqRows_iff {as bs : List (List (Value H))}
    (h : ∀ v ∈ as.flatten, ∀ w ∈ bs.flatten, BeqKey v w) :
    beqRows as bs = true ↔ keyRows as = keyRows bs := by
  induction as generalizing bs with
  | nil => cases bs <;> simp [beqRows, keyRows]
  | cons a as ih =>
    cases bs with
    | nil => simp [beqRows, keyRows]
    | cons b bs =>
      simp only [List.flatten_cons] at h
      have hhead := beqItems_iff fun v hv w hw =>
        h v (List.mem_append_left _ hv) w (List.mem_append_left _ hw)
      have htail := ih fun v hv w hw =>
        h v (List.mem_append_right _ hv) w (List.mem_append_right _ hw)
      rw [beqRows, keyRows, keyRows, Bool.and_eq_true, hhead, htail, List.cons.injEq,
        RoseTree.node.injEq]
      simp only [true_and]

theorem beqOption_iff {a b : Option (Value H)} (h : ∀ v ∈ a.toList, ∀ w ∈ b.toList, BeqKey v w) :
    beqOption a b = true ↔ keyOption a = keyOption b := by
  cases a with
  | none => cases b <;> simp [beqOption, keyOption]
  | some v =>
    cases b with
    | none => simp [beqOption, keyOption]
    | some w =>
      have hvw : v.beq w = true ↔ v.key = w.key := h v (by simp) w (by simp)
      rw [beqOption, keyOption, keyOption, hvw, List.cons.injEq]
      simp only [and_true]

theorem beqKeyed_iff {K : Type} [DecidableEq K] {label : K → Atom H}
    (hlabel : Function.Injective label) {as bs : List (K × Value H)}
    (h : ∀ v ∈ as.map Prod.snd, ∀ w ∈ bs.map Prod.snd, BeqKey v w) :
    beqKeyed (as.map (Prod.map id beq)) bs = true ↔
      keyedTrees label (as.map (Prod.map id key)) = keyedTrees label (bs.map (Prod.map id key)) := by
  induction as generalizing bs with
  | nil => cases bs <;> simp [beqKeyed, keyedTrees]
  | cons a as ih =>
    cases bs with
    | nil => simp [beqKeyed, keyedTrees]
    | cons b bs =>
      have hhead : a.2.beq b.2 = true ↔ a.2.key = b.2.key := h _ (by simp) _ (by simp)
      have htail := ih fun v hv w hw =>
        h v (List.mem_cons_of_mem _ hv) w (List.mem_cons_of_mem _ hw)
      simp only [List.map_cons, Prod.map, id, beqKeyed, Bool.and_eq_true, decide_eq_true_eq]
      rw [hhead, htail]
      simp only [keyedTrees, List.flatMap_cons, List.cons_append, List.nil_append, List.cons.injEq,
        RoseTree.leaf, RoseTree.node.injEq, hlabel.eq_iff, and_true, and_assoc]

theorem beqFields_iff {as bs : List (String × Value H)} :
    beqFields as bs = true ↔
      ∀ e ∈ userFields as, ∃ w, bs.lookup e.1 = some w ∧ e.2.beq w = true := by
  induction as with
  | nil => simp [beqFields, userFields]
  | cons e es ih =>
    rw [beqFields, Bool.and_eq_true, ih, userFields_cons]
    by_cases he : e.1 ∈ overlayKeys
    · rw [if_pos he, if_pos he]
      simp only [true_and]
    · rw [if_neg he, if_neg he, List.forall_mem_cons]
      refine and_congr ?_ Iff.rfl
      cases bs.lookup e.1 with
      | none => simp
      | some w => simp

instance instTransCmpStrCmp : Std.TransCmp strCmp :=
  transCmp_comap strCode (List.compareLex compare)

instance instLawfulEqCmpStrCmp : Std.LawfulEqCmp strCmp :=
  lawfulEqCmp_comap strCode_injective (List.compareLex compare)

/-- With different names, as many fields that are all found make equal sorted fields. -/
theorem beqStructure_iff {as bs : List (String × Value H)} (has : (as.map Prod.fst).Nodup)
    (hbs : (bs.map Prod.fst).Nodup)
    (h : ∀ v ∈ as.map Prod.snd, ∀ w ∈ bs.map Prod.snd, BeqKey v w) :
    ((userFields as).length = (userFields bs).length ∧ beqFields as bs = true) ↔
      sortKeyed strCmp (userFields (keyNamed as)) = sortKeyed strCmp (userFields (keyNamed bs)) := by
  rw [keyNamed_eq, keyNamed_eq, userFields_map, userFields_map, sortKeyed_eq_iff, List.length_map,
    List.length_map, beqFields_iff, List.forall_mem_map]
  · refine and_congr_right fun _ => forall₂_congr fun e he => ?_
    obtain ⟨hmem, huser⟩ := mem_userFields.mp he
    have hkey {w : Value H} (hw : (e.1, w) ∈ bs) : e.2.beq w = true ↔ e.2.key = w.key :=
      h e.2 (List.mem_map_of_mem hmem) w (List.mem_map.mpr ⟨_, hw, rfl⟩)
    constructor
    · rintro ⟨w, hlookup, hbeq⟩
      have hw := (lookup_eq_some_iff_mem hbs).mp hlookup
      refine List.mem_map.mpr ⟨(e.1, w), mem_userFields.mpr ⟨hw, huser⟩, ?_⟩
      exact Prod.ext rfl ((hkey hw).mp hbeq).symm
    · intro he'
      obtain ⟨⟨name, w⟩, hw, heq⟩ := List.mem_map.mp he'
      obtain ⟨rfl, hvalue⟩ := Prod.mk.inj heq
      have hw' := (mem_userFields.mp hw).1
      exact ⟨w, (lookup_eq_some_iff_mem hbs).mpr hw', (hkey hw').mpr hvalue.symm⟩
  · rw [List.map_map]
    exact has.sublist (List.filter_sublist.map Prod.fst)

/-- Sorted keyed values are equal exactly if their sorted keys are. -/
theorem beqSorted_iff {K : Type} [DecidableEq K] {cmp : K → K → Ordering} {label : K → Atom H}
    (hlabel : Function.Injective label) {as bs : List (K × Value H)}
    (h : ∀ v ∈ as.map Prod.snd, ∀ w ∈ bs.map Prod.snd, BeqKey v w) :
    beqKeyed (sortKeyed cmp (as.map (Prod.map id beq))) (sortKeyed cmp bs) = true ↔
      keyedTrees label (sortKeyed cmp (as.map (Prod.map id key))) =
        keyedTrees label (sortKeyed cmp (bs.map (Prod.map id key))) := by
  rw [sortKeyed_map, sortKeyed_map, sortKeyed_map]
  apply beqKeyed_iff hlabel
  intro v hv w hw
  have hmem {entries : List (K × Value H)} {v : Value H}
      (hv : v ∈ (sortKeyed cmp entries).map Prod.snd) : v ∈ entries.map Prod.snd :=
    ((sortKeyed_perm entries).map Prod.snd).mem_iff.mp hv
  exact h v (hmem hv) w (hmem hw)

omit [ContentHashing H] [HashBits H] [DecidableEq H] in
theorem floatsKey_inj {xs ys : List F64} :
    (floatsKey xs : RoseTree (Atom H)) = floatsKey ys ↔ xs = ys := by
  constructor
  · intro h
    refine List.map_injective_iff.mpr ?_ (RoseTree.node.inj h).2
    intro x y hxy
    simpa [RoseTree.leaf] using hxy
  · rintro rfl
    rfl

omit [ContentHashing H] [HashBits H] [DecidableEq H] in
theorem paramsKey_inj {ps qs : List (String × ValueCellId)} :
    (ps.flatMap fun p => [RoseTree.leaf (Atom.str p.1), .leaf (.cell p.2)] :
        List (RoseTree (Atom H))) =
      (qs.flatMap fun p => [.leaf (.str p.1), .leaf (.cell p.2)]) ↔ ps = qs := by
  constructor
  · intro h
    have hblocks := map_eq_of_flatMap_eq (by decide : 0 < 2) (fun _ => rfl) h
    refine List.map_injective_iff.mpr ?_ hblocks
    intro x y hxy
    simp only [List.cons.injEq, RoseTree.leaf, RoseTree.node.injEq, Atom.str.injEq,
      Atom.cell.injEq, and_true] at hxy
    exact Prod.ext hxy.1 hxy.2
  · rintro rfl
    rfl

theorem floatsBeq_iff {xs ys : List F64} : floatsBeq xs ys = true ↔ xs = ys := by
  rw [floatsBeq, Bool.and_eq_true, decide_eq_true_eq]
  induction xs generalizing ys with
  | nil => cases ys <;> simp
  | cons x xs ih =>
    cases ys with
    | nil => simp
    | cons y ys =>
      rw [List.cons.injEq, ← ih]
      simp only [List.length_cons, List.zip_cons_cons, List.all_cons, Bool.and_eq_true,
        decide_eq_true_eq, F64.bits_inj, Nat.add_right_cancel_iff]
      tauto

theorem gridsBeq_iff {xs ys : List (List F64)} :
    (xs.length = ys.length ∧ ((xs.zip ys).all fun p => floatsBeq p.1 p.2) = true) ↔ xs = ys := by
  induction xs generalizing ys with
  | nil => cases ys <;> simp
  | cons x xs ih =>
    cases ys with
    | nil => simp
    | cons y ys =>
      rw [List.cons.injEq, ← ih, ← floatsBeq_iff]
      simp only [List.length_cons, List.zip_cons_cons, List.all_cons, Bool.and_eq_true,
        Nat.add_right_cancel_iff]
      tauto

theorem SampledGridKind.debug_injective : Function.Injective SampledGridKind.debug := by
  intro k l h
  cases k
  all_goals
    cases l
    all_goals first
      | rfl
      | simp [SampledGridKind.debug] at h

theorem InterpolationKind.debug_injective : Function.Injective InterpolationKind.debug := by
  intro k l h
  cases k
  all_goals
    cases l
    all_goals first
      | rfl
      | simp [InterpolationKind.debug] at h

theorem FieldSourceKind.debug_injective : Function.Injective FieldSourceKind.debug := by
  intro k l h
  cases k
  all_goals
    cases l
    all_goals first
      | rfl
      | simp [FieldSourceKind.debug] at h

omit [ContentHashing H] [HashBits H] [DecidableEq H] in
theorem sampledFieldBeq_iff {f g : SampledField} :
    f.beq g = true ↔ (f.key : List (RoseTree (Atom H))) = g.key := by
  have hgrids : f.axisGrids.map (@floatsKey H) = g.axisGrids.map floatsKey ↔
      f.axisGrids = g.axisGrids :=
    (List.map_injective_iff.mpr fun _ _ h => floatsKey_inj.mp h).eq_iff
  have hlength : f.axisGrids = g.axisGrids → f.axisGrids.length = g.axisGrids.length :=
    congrArg List.length
  simp only [SampledField.beq, SampledField.key, Bool.and_eq_true, decide_eq_true_eq,
    List.cons.injEq, RoseTree.leaf, RoseTree.node.injEq, floatsKey_inj, hgrids, floatsBeq_iff,
    Atom.str.injEq, Atom.nat.injEq, SampledGridKind.debug_injective.eq_iff,
    InterpolationKind.debug_injective.eq_iff, and_true]
  rw [← gridsBeq_iff] at hlength ⊢
  tauto

/-- The entries of two maps are the same floats exactly if the maps are equal. -/
theorem affineEntries_inj {al bl : Fin 3 → Fin 3 → F64} {tr bt : Fin 3 → F64} :
    affineEntries al tr = affineEntries bl bt ↔ al = bl ∧ tr = bt := by
  have hfun {f g : Fin 3 → F64} (h : (List.finRange 3).map f = (List.finRange 3).map g) : f = g :=
    funext fun i => List.map_inj_left.mp h i (List.mem_finRange i)
  constructor
  · intro h
    obtain ⟨hlinear, htranslation⟩ := List.append_inj h (by simp)
    refine ⟨?_, hfun htranslation⟩
    let block (row : Fin 3 → F64) : List F64 := (List.finRange 3).map row
    have hflat (al : Fin 3 → Fin 3 → F64) : ((List.finRange 3).flatMap fun i => block (al i)) =
        ((List.finRange 3).map al).flatMap block := by
      rw [List.flatMap_map]
    rw [hflat al, hflat bl] at hlinear
    have hblock : Function.Injective block := fun _ _ => hfun
    have hrows := List.map_injective_iff.mpr hblock
      (map_eq_of_flatMap_eq (by decide : 0 < 3) (fun _ => rfl) hlinear)
    exact funext fun i => List.map_inj_left.mp hrows i (List.mem_finRange i)
  · rintro ⟨rfl, rfl⟩
    rfl

theorem toNat_inj : ∀ {x y : Bool}, x.toNat = y.toNat ↔ x = y := by
  decide

omit [DecidableEq H] in
theorem label_key (a : Value H) : ∃ parts, a.key = .node (.nat a.typeTag) parts := by
  cases a
  all_goals exact ⟨_, by rw [key, typeTag]⟩

omit [DecidableEq H] in
theorem typeTag_eq_of_key {a b : Value H} (h : a.key = b.key) : a.typeTag = b.typeTag := by
  obtain ⟨parts, ha⟩ := label_key a
  obtain ⟨parts', hb⟩ := label_key b
  rw [ha, hb] at h
  exact Atom.nat.inj (RoseTree.node.inj h).1

theorem beq_of_typeTag_ne {a b : Value H} (h : a.typeTag ≠ b.typeTag) : a.beq b = false := by
  cases a
  all_goals
    cases b
    all_goals first
      | rfl
      | exact absurd rfl h

/-- Two values are equal exactly if their keys are. -/
theorem beq_iff_key {a b : Value H} (ha : a.WF) (hb : b.WF) : a.beq b = true ↔ a.key = b.key := by
  induction a using childInduct generalizing b with
  | step a ih =>
    have hchildren : ∀ v ∈ a.children, ∀ w ∈ b.children, BeqKey v w :=
      fun v hv w hw => ih v hv (ha.child hv) (hb.child hw)
    by_cases htag : a.typeTag = b.typeTag
    · cases sameVariant_of_typeTag htag with
      | undef => simp [beq]
      | bool a b =>
        cases a
        all_goals
          cases b
          all_goals simp [beq, key, RoseTree.leaf]
      | int a b => simp [beq, key, RoseTree.leaf, Int64.toInt_inj]
      | real a b => simp [beq, key, RoseTree.leaf, F64.bits_inj]
      | scalar a ad b bd => simp [beq, key, RoseTree.leaf, F64.bits_inj, and_comm]
      | string a b => simp [beq, key, RoseTree.leaf]
      | enum a av ap b bv bp =>
        have hpayload := @beqSorted_iff _ _ _ _ _ _ strCmp .str (fun _ _ h => Atom.str.inj h) ap bp
          hchildren
        rw [beq, key, key, RoseTree.node.injEq, List.cons.injEq, List.cons.injEq, keyNamed_eq,
          keyNamed_eq, ← hpayload, beqNamed_eq]
        by_cases hname : a = b ∧ av = bv
        · simp [hname.1, hname.2]
        · rw [if_pos (by tauto)]
          simp only [RoseTree.leaf, RoseTree.node.injEq, Atom.str.injEq, and_true, true_and]
          tauto
      | list as bs | set as bs | tensor as bs | point as bs | vector as bs =>
        have hitems : beqItems as bs = true ↔ keyItems as = keyItems bs := beqItems_iff hchildren
        rw [beq, key, key, RoseTree.node.injEq, hitems]
        simp only [true_and]
      | map as bs =>
        rw [beq, key, key, RoseTree.node.injEq, beqEntries_iff hchildren]
        simp only [true_and]
      | option a b =>
        rw [beq, key, key, RoseTree.node.injEq, beqOption_iff hchildren]
        simp only [true_and]
      | field ad ac asrc al bd bc bsrc bl =>
        have hinner : al.beq bl = true ↔ al.key = bl.key := hchildren al (by simp [children]) bl
          (by simp [children])
        simp [beq, key, RoseTree.leaf, hinner, FieldSourceKind.debug_injective.eq_iff, and_assoc]
      | lambda ap ab ac bp bb bc =>
        have hcaptures := @beqSorted_iff _ _ _ _ _ _ ValueCellId.cmp .cell
          (fun _ _ h => Atom.cell.inj h) ac bc hchildren
        rw [beq, key, key, RoseTree.node.injEq, List.cons.injEq, List.cons.injEq, keyCaptures_eq,
          keyCaptures_eq, ← hcaptures, beqCaptures_eq]
        simp only [RoseTree.leaf, RoseTree.node.injEq, Atom.hash.injEq, Bool.and_eq_true,
          decide_eq_true_eq, true_and, and_true]
        rw [← paramsKey_inj (H := H)]
        exact and_assoc
      | complex ar ai ad br bi bd =>
        simp only [beq, key, RoseTree.leaf, F64.bits_inj, Bool.and_eq_true, decide_eq_true_eq,
          RoseTree.node.injEq, List.cons.injEq, Atom.dimension.injEq, Atom.float.injEq]
        tauto
      | orientation aw ax ay az bw bx bY bz =>
        simp [beq, key, RoseTree.leaf, F64.bits_inj, and_assoc]
      | range al au ali aui bl bu bli bui =>
        have hlower : beqOption al bl = true ↔ keyOption al = keyOption bl :=
          beqOption_iff fun v hv w hw =>
            hchildren v (List.mem_append_left _ hv) w (List.mem_append_left _ hw)
        have hupper : beqOption au bu = true ↔ keyOption au = keyOption bu :=
          beqOption_iff fun v hv w hw =>
            hchildren v (List.mem_append_right _ hv) w (List.mem_append_right _ hw)
        simp only [beq, key, RoseTree.leaf, RoseTree.node.injEq, List.cons.injEq, Bool.and_eq_true,
          decide_eq_true_eq, hlower, hupper, Atom.nat.injEq, toNat_inj, and_true, true_and]
        tauto
      | matrix as bs =>
        rw [beq, key, key, RoseTree.node.injEq, beqRows_iff hchildren]
        simp only [true_and]
      | frame a a' b b' | transform a a' b b' | plane a a' b b' | axis a a' b b'
      | boundingBox a a' b b' =>
        have hfst : a.beq b = true ↔ a.key = b.key := hchildren a (by simp [children]) b
          (by simp [children])
        have hsnd : a'.beq b' = true ↔ a'.key = b'.key := hchildren a' (by simp [children]) b'
          (by simp [children])
        simp [beq, key, hfst, hsnd]
      | sampledField a b =>
        rw [beq, key, key, RoseTree.node.injEq, sampledFieldBeq_iff (H := H)]
        simp only [true_and]
      | structureInstance ai an av af bi bn bv bf =>
        have hfields := beqStructure_iff ha.formed hb.formed hchildren
        simp only [beq, key, RoseTree.leaf, RoseTree.node.injEq, List.cons.injEq, Atom.str.injEq,
          Atom.nat.injEq, UInt32.toNat_inj, (keyedTrees_inj fun _ _ h => Atom.str.inj h), ← hfields,
          and_true, true_and]
        by_cases hname : an = bn ∧ av = bv
        · by_cases hlength : (userFields af).length = (userFields bf).length
          · simp [hname.1, hname.2, hlength]
          · simp [hname.1, hname.2, hlength]
        · rw [if_pos (by tauto)]
          tauto
      | geometryHandle ar ah ak br bh bk =>
        obtain ⟨entity, index⟩ := ar
        obtain ⟨entity', index'⟩ := br
        simp [beq, key, RoseTree.leaf, UInt32.toNat_inj, Vector.toList_inj, and_assoc]
      | affineMap al tr bl bt =>
        have hentries : affineEntries al tr = affineEntries bl bt ↔ al = bl ∧ tr = bt :=
          affineEntries_inj
        have hleaf : Function.Injective fun x : F64 => RoseTree.leaf (Atom.float (H := H) x) := by
          intro x y hxy
          simpa [RoseTree.leaf] using hxy
        rw [key, key, RoseTree.node.injEq, (List.map_injective_iff.mpr hleaf).eq_iff, hentries]
        simp [beq, F64.bits_inj, funext_iff]
      | selector a b => simp [beq, key, RoseTree.leaf]
      | direction ax ay az bx bY bz => simp [beq, key, RoseTree.leaf, F64.bits_inj, and_assoc]
      | feature a b => simp [beq, key, RoseTree.leaf, FeatureId.contentHashBytes_injective.eq_iff]
    · have hne : a.key ≠ b.key := fun h => htag (typeTag_eq_of_key h)
      rw [beq_of_typeTag_ne htag]
      simp [hne]

end

/-! ### Order -/

/-- The comparison of two keys. -/
def keyCmp (s t : RoseTree (Atom H)) : Ordering :=
  RoseTree.cmp Atom.codeCmp (s.map Atom.code) (t.map Atom.code)

/-- The comparison of two sequences of keys. -/
def keyCmpList (ss ts : List (RoseTree (Atom H))) : Ordering :=
  RoseTree.cmpList Atom.codeCmp (ss.map (RoseTree.map Atom.code)) (ts.map (RoseTree.map Atom.code))

section

omit [ContentHashing H]

@[simp] theorem keyCmpList_nil_nil : keyCmpList ([] : List (RoseTree (Atom H))) [] = .eq := rfl

@[simp] theorem keyCmpList_nil_cons (t : RoseTree (Atom H)) (ts : List (RoseTree (Atom H))) :
    keyCmpList [] (t :: ts) = .lt := rfl

@[simp] theorem keyCmpList_cons_nil (s : RoseTree (Atom H)) (ss : List (RoseTree (Atom H))) :
    keyCmpList (s :: ss) [] = .gt := rfl

@[simp] theorem keyCmpList_cons_cons (s t : RoseTree (Atom H)) (ss ts : List (RoseTree (Atom H))) :
    keyCmpList (s :: ss) (t :: ts) = (keyCmp s t).then (keyCmpList ss ts) := rfl

@[simp] theorem keyCmp_node (a b : Atom H) (ss ts : List (RoseTree (Atom H))) :
    keyCmp (.node a ss) (.node b ts) =
      (Atom.codeCmp a.code b.code).then (keyCmpList ss ts) := by
  rw [keyCmp, RoseTree.map_node, RoseTree.map_node, RoseTree.cmp_node, keyCmpList]

@[simp] theorem keyCmp_leaf (a b : Atom H) :
    keyCmp (.leaf a) (.leaf b) = Atom.codeCmp a.code b.code := by
  rw [RoseTree.leaf, RoseTree.leaf, keyCmp_node, keyCmpList_nil_nil, Ordering.then_eq]

end

@[simp] theorem thenWith_some (o o' : Ordering) : thenWith (some o) (some o') = some (o.then o') := by
  cases o
  all_goals rfl

/-- The comparison never panics and is that of the keys. -/
def CmpKey (v w : Value H) : Prop := v.cmp w = some (keyCmp v.key w.key)

theorem cmpItems_eq {as bs : List (Value H)} (h : ∀ v ∈ as, ∀ w ∈ bs, CmpKey v w) :
    cmpItems as bs = some (keyCmpList (keyItems as) (keyItems bs)) := by
  induction as generalizing bs with
  | nil => cases bs <;> simp [cmpItems, keyItems]
  | cons a as ih =>
    cases bs with
    | nil => simp [cmpItems, keyItems]
    | cons b bs =>
      have hhead : a.cmp b = _ := h a List.mem_cons_self b List.mem_cons_self
      have htail := ih fun v hv w hw => h v (List.mem_cons_of_mem a hv) w (List.mem_cons_of_mem b hw)
      rw [cmpItems, keyItems, keyItems, hhead, htail, thenWith_some, keyCmpList_cons_cons]

theorem cmpEntries_eq {as bs : List (Value H × Value H)}
    (h : ∀ v ∈ as.flatMap fun e => [e.1, e.2], ∀ w ∈ bs.flatMap fun e => [e.1, e.2], CmpKey v w) :
    cmpEntries as bs = some (keyCmpList (keyEntries as) (keyEntries bs)) := by
  induction as generalizing bs with
  | nil => cases bs <;> simp [cmpEntries, keyEntries]
  | cons a as ih =>
    cases bs with
    | nil => simp [cmpEntries, keyEntries]
    | cons b bs =>
      simp only [List.flatMap_cons] at h
      have hkey : a.1.cmp b.1 = _ := h _ (by simp) _ (by simp)
      have hval : a.2.cmp b.2 = _ := h _ (by simp) _ (by simp)
      have htail := ih fun v hv w hw =>
        h v (List.mem_append_right _ hv) w (List.mem_append_right _ hw)
      rw [cmpEntries, keyEntries, keyEntries, hkey, hval, htail, thenWith_some, thenWith_some,
        keyCmpList_cons_cons, keyCmpList_cons_cons, Ordering.then_assoc]

theorem cmpRows_eq {as bs : List (List (Value H))}
    (h : ∀ v ∈ as.flatten, ∀ w ∈ bs.flatten, CmpKey v w) :
    cmpRows as bs = some (keyCmpList (keyRows as) (keyRows bs)) := by
  induction as generalizing bs with
  | nil => cases bs <;> simp [cmpRows, keyRows]
  | cons a as ih =>
    cases bs with
    | nil => simp [cmpRows, keyRows]
    | cons b bs =>
      simp only [List.flatten_cons] at h
      have hhead := cmpItems_eq fun v hv w hw =>
        h v (List.mem_append_left _ hv) w (List.mem_append_left _ hw)
      have htail := ih fun v hv w hw =>
        h v (List.mem_append_right _ hv) w (List.mem_append_right _ hw)
      rw [cmpRows, keyRows, keyRows, hhead, htail, thenWith_some, keyCmpList_cons_cons, keyCmp_node]
      rfl

theorem cmpOption_eq {a b : Option (Value H)} (h : ∀ v ∈ a.toList, ∀ w ∈ b.toList, CmpKey v w) :
    cmpOption a b = some (keyCmpList (keyOption a) (keyOption b)) := by
  cases a with
  | none => cases b <;> simp [cmpOption, keyOption]
  | some v =>
    cases b with
    | none => simp [cmpOption, keyOption]
    | some w =>
      have hvw : v.cmp w = _ := h v (by simp) w (by simp)
      rw [cmpOption, keyOption, keyOption, hvw, keyCmpList_cons_cons, keyCmpList_nil_nil,
        Ordering.then_eq]

theorem cmpNamed_eq (entries : List (String × Value H)) :
    cmpNamed entries = entries.map (Prod.map id cmp) := by
  induction entries with
  | nil => rfl
  | cons e es ih =>
    rw [cmpNamed, ih, List.map_cons]
    rfl

theorem cmpCaptures_eq (entries : List (ValueCellId × Value H)) :
    cmpCaptures entries = entries.map (Prod.map id cmp) := by
  induction entries with
  | nil => rfl
  | cons e es ih =>
    rw [cmpCaptures, ih, List.map_cons]
    rfl

theorem cmpKeyed_eq {K : Type} {cmpK : K → K → Ordering} {label : K → Atom H}
    (hlabel : ∀ k l, Atom.codeCmp (label k).code (label l).code = cmpK k l)
    {as bs : List (K × Value H)}
    (h : ∀ v ∈ as.map Prod.snd, ∀ w ∈ bs.map Prod.snd, CmpKey v w) :
    cmpKeyed cmpK (as.map (Prod.map id cmp)) bs =
      some (keyCmpList (keyedTrees label (as.map (Prod.map id key)))
        (keyedTrees label (bs.map (Prod.map id key)))) := by
  induction as generalizing bs with
  | nil => cases bs <;> simp [cmpKeyed, keyedTrees]
  | cons a as ih =>
    cases bs with
    | nil => simp [cmpKeyed, keyedTrees]
    | cons b bs =>
      have hhead : a.2.cmp b.2 = _ := h _ (by simp) _ (by simp)
      have htail := ih fun v hv w hw =>
        h v (List.mem_cons_of_mem _ hv) w (List.mem_cons_of_mem _ hw)
      simp only [List.map_cons, Prod.map, id, cmpKeyed]
      rw [hhead, htail]
      simp only [keyedTrees, List.flatMap_cons, List.cons_append, List.nil_append, thenWith_some,
        keyCmpList_cons_cons, keyCmp_leaf, hlabel, Ordering.then_assoc]

/-- Sorted keyed values compare as their sorted keys. -/
theorem cmpSorted_eq {K : Type} {cmpK : K → K → Ordering} {label : K → Atom H}
    (hlabel : ∀ k l, Atom.codeCmp (label k).code (label l).code = cmpK k l)
    {as bs : List (K × Value H)}
    (h : ∀ v ∈ as.map Prod.snd, ∀ w ∈ bs.map Prod.snd, CmpKey v w) :
    cmpKeyed cmpK (sortKeyed cmpK (as.map (Prod.map id cmp))) (sortKeyed cmpK bs) =
      some (keyCmpList (keyedTrees label (sortKeyed cmpK (as.map (Prod.map id key))))
        (keyedTrees label (sortKeyed cmpK (bs.map (Prod.map id key))))) := by
  rw [sortKeyed_map, sortKeyed_map, sortKeyed_map]
  apply cmpKeyed_eq hlabel
  intro v hv w hw
  have hmem {entries : List (K × Value H)} {v : Value H}
      (hv : v ∈ (sortKeyed cmpK entries).map Prod.snd) : v ∈ entries.map Prod.snd :=
    ((sortKeyed_perm entries).map Prod.snd).mem_iff.mp hv
  exact h v (hmem hv) w (hmem hw)

section

omit [ContentHashing H]

/-- The first difference of two runs of one length. -/
theorem firstDifference_eq {B : Type} {cmpB : B → B → Ordering} {tree : B → RoseTree (Atom H)}
    (htree : ∀ x y, keyCmp (tree x) (tree y) = cmpB x y) {xs ys : List B}
    (hlength : xs.length = ys.length) :
    (((xs.zip ys).map fun p => cmpB p.1 p.2).find? fun o => !o.isEq).getD .eq =
      keyCmpList (xs.map tree) (ys.map tree) := by
  induction xs generalizing ys with
  | nil =>
    cases ys with
    | nil => rfl
    | cons y ys => simp at hlength
  | cons x xs ih =>
    cases ys with
    | nil => simp at hlength
    | cons y ys =>
      rw [List.map_cons, List.map_cons, keyCmpList_cons_cons, htree, ← ih (Nat.succ.inj hlength),
        List.zip_cons_cons, List.map_cons, List.find?_cons]
      cases cmpB x y
      all_goals rfl

/-- Two runs compared by their lengths and then by their first difference. -/
theorem countedCmp_eq {B : Type} {cmpB : B → B → Ordering} {tree : B → RoseTree (Atom H)}
    (htree : ∀ x y, keyCmp (tree x) (tree y) = cmpB x y) (xs ys : List B) :
    (compare xs.length ys.length).then
        ((((xs.zip ys).map fun p => cmpB p.1 p.2).find? fun o => !o.isEq).getD .eq) =
      keyCmp (.node (.nat xs.length) (xs.map tree)) (.node (.nat ys.length) (ys.map tree)) := by
  rw [keyCmp_node, Atom.codeCmp_nat]
  by_cases hlength : xs.length = ys.length
  · rw [firstDifference_eq htree hlength]
  · have hne : compare xs.length ys.length ≠ .eq := mt compare_eq_iff_eq.mp hlength
    cases hcmp : compare xs.length ys.length with
    | lt => rfl
    | gt => rfl
    | eq => exact absurd hcmp hne

theorem keyCmp_leaf_float (x y : F64) :
    keyCmp (.leaf (.float (H := H) x)) (.leaf (.float y)) = x.totalCmp y := by
  rw [keyCmp_leaf, Atom.codeCmp_float]

theorem keyCmp_floatsKey (xs ys : List F64) :
    keyCmp (floatsKey (H := H) xs) (floatsKey ys) = cmpFloats xs ys :=
  (countedCmp_eq keyCmp_leaf_float xs ys).symm

theorem sampledFieldCmp_eq (f g : SampledField) :
    f.cmp g = keyCmpList (H := H) f.key g.key := by
  rw [SampledField.cmp, countedCmp_eq (keyCmp_floatsKey (H := H))]
  simp [SampledField.key, keyCmp_floatsKey]

theorem cmpParams_eq (ps qs : List (String × ValueCellId)) :
    cmpParams ps qs =
      keyCmpList (H := H) (ps.flatMap fun p => [.leaf (.str p.1), .leaf (.cell p.2)])
        (qs.flatMap fun p => [.leaf (.str p.1), .leaf (.cell p.2)]) := by
  rw [cmpParams]
  induction ps generalizing qs with
  | nil => cases qs <;> simp [List.compareLex_nil_nil, List.compareLex_nil_cons]
  | cons p ps ih =>
    cases qs with
    | nil => simp [List.compareLex_cons_nil]
    | cons q qs =>
      simp [List.compareLex_cons_cons, ih, Ordering.then_assoc]

end

/-- The comparison never reaches its last arm, and is that of the keys. -/
theorem cmp_eq_key (a b : Value H) : a.cmp b = some (keyCmp a.key b.key) := by
  induction a using childInduct generalizing b with
  | step a ih =>
    have hchildren : ∀ v ∈ a.children, ∀ w ∈ b.children, CmpKey v w := fun v hv w _ => ih v hv w
    by_cases htag : a.typeTag = b.typeTag
    · cases sameVariant_of_typeTag htag with
      | undef => rfl
      | bool a b => simp [cmp, typeTag, key]
      | int a b => simp [cmp, typeTag, key]
      | real a b => simp [cmp, typeTag, key]
      | scalar a ad b bd => simp [cmp, typeTag, key]
      | string a b => simp [cmp, typeTag, key]
      | enum a av ap b bv bp =>
        have hpayload := @cmpSorted_eq _ _ _ _ strCmp .str Atom.codeCmp_str ap bp hchildren
        rw [cmp, if_neg (not_not_intro htag)]
        simp only [cmpNamed_eq, hpayload, key, keyNamed_eq, thenWith_some, keyCmp_node,
          keyCmpList_cons_cons, keyCmp_leaf, Atom.codeCmp_str, Atom.codeCmp_nat,
          compare_eq_iff_eq.mpr rfl, Ordering.eq_then]
      | list as bs | set as bs | tensor as bs | point as bs | vector as bs =>
        have hitems : cmpItems as bs = _ := cmpItems_eq hchildren
        simp [cmp, typeTag, key, hitems]
      | map as bs =>
        have hentries : cmpEntries as bs = _ := cmpEntries_eq hchildren
        simp [cmp, typeTag, key, hentries]
      | option a b =>
        have hoption : cmpOption a b = _ := cmpOption_eq hchildren
        simp [cmp, typeTag, key, hoption]
      | field ad ac asrc al bd bc bsrc bl =>
        have hinner : al.cmp bl = _ := hchildren al (by simp [children]) bl (by simp [children])
        simp [cmp, typeTag, key, hinner]
      | lambda ap ab ac bp bb bc =>
        have hcaptures := @cmpSorted_eq _ _ _ _ ValueCellId.cmp .cell Atom.codeCmp_cell ac bc
          hchildren
        rw [cmp, if_neg (not_not_intro htag)]
        simp only [cmpCaptures_eq, hcaptures, key, keyCaptures_eq, thenWith_some, keyCmp_node,
          keyCmpList_cons_cons, keyCmp_leaf, Atom.codeCmp_hash, Atom.codeCmp_nat, cmpParams_eq (H := H),
          compare_eq_iff_eq.mpr rfl, Ordering.eq_then]
      | complex ar ai ad br bi bd => simp [cmp, typeTag, key]
      | orientation aw ax ay az bw bx bY bz => simp [cmp, typeTag, key]
      | range al au ali aui bl bu bli bui =>
        have hlower : cmpOption al bl = _ :=
          cmpOption_eq fun v hv w hw =>
            hchildren v (List.mem_append_left _ hv) w (List.mem_append_left _ hw)
        have hupper : cmpOption au bu = _ :=
          cmpOption_eq fun v hv w hw =>
            hchildren v (List.mem_append_right _ hv) w (List.mem_append_right _ hw)
        simp [cmp, typeTag, key, hlower, hupper]
      | matrix as bs =>
        have hrows : cmpRows as bs = _ := cmpRows_eq hchildren
        simp [cmp, typeTag, key, hrows]
      | frame a a' b b' | transform a a' b b' | plane a a' b b' | axis a a' b b'
      | boundingBox a a' b b' =>
        have hfst : a.cmp b = _ := hchildren a (by simp [children]) b (by simp [children])
        have hsnd : a'.cmp b' = _ := hchildren a' (by simp [children]) b' (by simp [children])
        simp [cmp, typeTag, key, hfst, hsnd]
      | sampledField a b => simp [cmp, typeTag, key, sampledFieldCmp_eq (H := H)]
      | structureInstance ai an av af bi bn bv bf =>
        have hmem {fields : List (String × Value H)} {v : Value H}
            (hv : v ∈ (userFields fields).map Prod.snd) : v ∈ fields.map Prod.snd :=
          (List.filter_sublist.map Prod.snd).subset hv
        have hfields := @cmpSorted_eq _ _ _ _ strCmp .str Atom.codeCmp_str (userFields af)
          (userFields bf) fun v hv w hw => hchildren v (hmem hv) w (hmem hw)
        rw [cmp, if_neg (not_not_intro htag)]
        simp only [cmpNamed_eq, userFields_map, hfields, key, keyNamed_eq, thenWith_some,
          keyCmp_node, keyCmpList_cons_cons, keyCmp_leaf, Atom.codeCmp_str, Atom.codeCmp_nat,
          compare_eq_iff_eq.mpr rfl, Ordering.eq_then]
      | geometryHandle ar ah ak br bh bk => simp [cmp, typeTag, key]
      | affineMap al tr bl bt =>
        have hentries : cmpEntriesF64 (affineEntries al tr) (affineEntries bl bt) = _ :=
          firstDifference_eq (keyCmp_leaf_float (H := H)) (by simp [affineEntries])
        simp [cmp, typeTag, key, hentries]
      | selector a b => simp [cmp, typeTag, key]
      | direction ax ay az bx bY bz => simp [cmp, typeTag, key]
      | feature a b => simp [cmp, typeTag, key]
    · obtain ⟨parts, ha⟩ := label_key a
      obtain ⟨parts', hb⟩ := label_key b
      have hne : compare a.typeTag b.typeTag ≠ .eq := mt compare_eq_iff_eq.mp htag
      rw [cmp.eq_def, if_pos htag, ha, hb, keyCmp_node, Atom.codeCmp_nat]
      cases hcmp : compare a.typeTag b.typeTag with
      | lt => rfl
      | gt => rfl
      | eq => exact absurd hcmp hne

end Value

end Reify
