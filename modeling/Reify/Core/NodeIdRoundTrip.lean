import Reify.Core.Identity
import Reify.Foundation.Decimal

/-!
# Node ids and their text form

`NodeId.fromStr` reads back what `NodeId.display` writes, for every indexed id
the grammar admits and for every value cell but one kind: a cell whose rendering
is an indexed id with a zero-padded index, such as `E.x#constraint[007]`.

## Main definitions

* `IndexedNodeKind.Spells`: a text spells an entity and a digit word in a kind's
  grammar, canonical or not.
* `NodeId.Admissible`: the ids the round trip is about.
* `NodeId.PaddedIndex`: the value cells that are read as an indexed node.

## Main results

* `parseRendered_eq_ok_iff`: what the indexed grammar accepts.
* `fromStr_display_iff`: the round trip holds exactly off `PaddedIndex`.
* `display_fromStr_iff`: what is read is written back as it was read, exactly off the texts
  with a zero-padded index.
-/

namespace Reify

open Foundation

/-! ## The value-cell grammar -/

namespace ValueCellId

theorem toList_display (id : ValueCellId) :
    id.display.toList = id.entity.toList ++ '.' :: id.member.toList := by
  simp [display]

/-- Non-empty, dot-free halves: the cells whose rendering names one cell. -/
def DotFree (id : ValueCellId) : Prop :=
  id.entity.toList ≠ [] ∧ id.member.toList ≠ [] ∧
    '.' ∉ id.entity.toList ∧ '.' ∉ id.member.toList

/-- A cell is written as the text it was read from. -/
theorem display_of_fromStr {s : String} {id : ValueCellId} (h : fromStr s = .ok id) :
    id.display = s := by
  unfold fromStr at h
  split at h
  · cases h
  · rename_i entity member hsplit
    obtain ⟨hs, -⟩ := splitOnce_eq_some_iff.mp hsplit
    split_ifs at h
    cases h
    apply String.toList_injective
    simp [toList_display, hs]

theorem fromStr_display {id : ValueCellId} (h : id.DotFree) : fromStr id.display = .ok id := by
  obtain ⟨hentity, hmember, hdotE, hdotM⟩ := h
  rw [fromStr, toList_display, splitOnce_append_cons hdotE]
  simp [hentity, hmember, hdotM]

end ValueCellId

/-! ## The indexed grammar -/

namespace IndexedNodeKind

/-- Non-empty and free of the structural delimiters. -/
def EntityAdmissible (entity : List Char) : Prop :=
  entity ≠ [] ∧ '/' ∉ entity ∧ '[' ∉ entity ∧ ']' ∉ entity

/-- `s` is `<entity>#<marker>[<ds>]` with an admissible entity and a numeral
`ds` that fits a `u32`. -/
def Spells (kind : IndexedNodeKind) (s entity ds : List Char) : Prop :=
  s = entity ++ (kind.opener ++ (ds ++ [']'])) ∧
    EntityAdmissible entity ∧ IsNumeral ds ∧ Nat.ofDigitChars 10 ds 0 < UInt32.size

theorem hash_not_mem_marker (kind : IndexedNodeKind) : '#' ∉ kind.marker.toList := by
  cases kind <;> decide

theorem bracket_not_mem_marker (kind : IndexedNodeKind) : '[' ∉ kind.marker.toList := by
  cases kind <;> decide

theorem not_mem_numeral {ds : List Char} (hds : IsNumeral ds) {c : Char}
    (hc : c.isDigit = false) : c ∉ ds := fun hmem => by
  simp [hds.2 c hmem] at hc

theorem toList_writeRendered (kind : IndexedNodeKind) (entity : String) (index : UInt32) :
    (kind.writeRendered entity index).toList =
      entity.toList ++ (kind.opener ++ (Nat.toDigits 10 index.toNat ++ [']'])) := by
  simp [writeRendered, opener, Nat.toList_repr]

/-- What is written for an admissible entity spells it and the index. -/
theorem spells_writeRendered (kind : IndexedNodeKind) {entity : String} (index : UInt32)
    (h : EntityAdmissible entity.toList) :
    kind.Spells (kind.writeRendered entity index).toList entity.toList
      (Nat.toDigits 10 index.toNat) := by
  refine ⟨toList_writeRendered kind entity index, h, isNumeral_toDigits _, ?_⟩
  rw [Nat.ofDigitChars_ten_toDigits]
  exact index.toNat_lt

/-- A spelled text names its kind: the last `#` is the opener's. -/
theorem Spells.ofRenderedId {kind : IndexedNodeKind} {s : String} {entity ds : List Char}
    (h : kind.Spells s.toList entity ds) : ofRenderedId s = some kind := by
  obtain ⟨hs, -, hds, -⟩ := h
  have htail : '#' ∉ kind.marker.toList ++ '[' :: (ds ++ [']']) := by
    have := hash_not_mem_marker kind
    have := not_mem_numeral hds (c := '#') (by decide)
    simp_all
  have hsplit : rsplitOnce ['#'] s.toList =
      some (entity, kind.marker.toList ++ '[' :: (ds ++ [']'])) := by
    rw [hs, ← rsplitOnce_append_cons (w := []) (by simp) htail entity]
    simp [opener]
  rw [IndexedNodeKind.ofRenderedId, hsplit]
  simp only [splitOnce_append_cons (bracket_not_mem_marker kind)]
  cases kind <;> decide

theorem Spells.rsplitOnce_opener {kind : IndexedNodeKind} {s entity ds : List Char}
    (h : kind.Spells s entity ds) :
    rsplitOnce kind.opener s = some (entity, ds ++ [']']) := by
  obtain ⟨rfl, -, hds, -⟩ := h
  have hmarker : '#' ∉ kind.marker.toList ++ ['['] := by simp [hash_not_mem_marker kind]
  have hrest : '#' ∉ ds ++ [']'] := by
    simp [not_mem_numeral hds (c := '#') (by decide)]
  exact rsplitOnce_append_cons hmarker hrest entity

/-- A text spells at most one kind, entity and digit word. -/
theorem Spells.unique {kind kind' : IndexedNodeKind} {s : String} {entity entity' ds ds' : List Char}
    (h : kind.Spells s.toList entity ds) (h' : kind'.Spells s.toList entity' ds') :
    kind = kind' ∧ entity = entity' ∧ ds = ds' := by
  obtain rfl : kind = kind' := Option.some.inj (h.ofRenderedId.symm.trans h'.ofRenderedId)
  have hsplit := h.rsplitOnce_opener.symm.trans h'.rsplitOnce_opener
  simpa using hsplit

end IndexedNodeKind

theorem u32FromStr_numeral {ds : List Char} (hds : IsNumeral ds) :
    u32FromStr ds =
      if Nat.ofDigitChars 10 ds 0 < UInt32.size then
        some (UInt32.ofNat (Nat.ofDigitChars 10 ds 0))
      else none := by
  have hplus : ∀ rest, ds ≠ '+' :: rest := by
    rintro rest rfl
    exact absurd (hds.2 '+' (by simp)) (by decide)
  have hdig : ds.all Char.isDigit = true := List.all_eq_true.mpr hds.2
  unfold u32FromStr
  split
  · exact absurd rfl (hplus _)
  · simp [hds.1, hdig]

theorem stripSuffix_eq_some_iff {c : Char} {s t : List Char} :
    stripSuffix c s = some t ↔ s = t ++ [c] := by
  unfold stripSuffix
  constructor
  · intro h
    split at h
    · next hlast =>
      cases h
      exact (List.dropLast_append_getLast? c hlast).symm
    · cases h
  · rintro rfl
    simp

namespace IndexedNodeKind

/-- **What the indexed grammar accepts**: the spelled texts, with the value of
their digit word. -/
theorem parseRendered_eq_ok_iff {kind : IndexedNodeKind} {s entity : String} {index : UInt32} :
    kind.parseRendered s = .ok (entity, index) ↔
      ∃ ds, kind.Spells s.toList entity.toList ds ∧
        index = UInt32.ofNat (Nat.ofDigitChars 10 ds 0) := by
  constructor
  · intro h
    unfold parseRendered at h
    split at h
    · cases h
    next e rest hsplit =>
      simp only at h
      split at h
      · cases h
      next hne =>
        split at h
        · cases h
        next hdelim =>
          split at h
          · cases h
          next ds hstrip =>
            split at h
            · cases h
            next hnum =>
              have hds : IsNumeral ds := by
                simpa [IsNumeral] using hnum
              rw [u32FromStr_numeral hds] at h
              by_cases hfit : Nat.ofDigitChars 10 ds 0 < UInt32.size
              · simp only [if_pos hfit, Except.ok.injEq, Prod.mk.injEq] at h
                obtain ⟨rfl, rfl⟩ := h
                obtain rfl := stripSuffix_eq_some_iff.mp hstrip
                have hs := eq_append_of_rsplitOnce hsplit
                refine ⟨ds, ⟨by simpa using hs, ?_, hds, hfit⟩, rfl⟩
                simpa [EntityAdmissible, hne] using hdelim
              · simp [if_neg hfit] at h
  · rintro ⟨ds, hspell, rfl⟩
    have hsplit := hspell.rsplitOnce_opener
    obtain ⟨-, ⟨hne, hslash, hopen, hclose⟩, hds, hfit⟩ := hspell
    have hstrip : stripSuffix ']' (ds ++ [']']) = some ds := stripSuffix_eq_some_iff.mpr rfl
    have hnum : ¬ (ds = [] ∨ ¬ ds.all Char.isDigit = true) := by
      simpa [IsNumeral] using hds
    simp only [parseRendered, hsplit, hstrip, u32FromStr_numeral hds, if_neg hne, if_neg hnum,
      if_pos hfit]
    simp [hslash, hopen, hclose]

end IndexedNodeKind

/-! ## Nodes -/

namespace NodeId

/-- The node of a kind, an entity and an index. -/
def ofIndexed : IndexedNodeKind → String → UInt32 → NodeId
  | .constraint, entity, index => constraint ⟨entity, index⟩
  | .realization, entity, index => realization ⟨entity, index⟩
  | .resolution, entity, index => resolution ⟨entity, index⟩
  | .compute, entity, index => compute ⟨entity, index⟩

@[simp] theorem ofIndexed_ne_value (kind : IndexedNodeKind) (entity : String) (index : UInt32)
    (v : ValueCellId) : ofIndexed kind entity index ≠ value v := by
  cases kind <;> simp [ofIndexed]

@[simp] theorem display_ofIndexed (kind : IndexedNodeKind) (entity : String) (index : UInt32) :
    (ofIndexed kind entity index).display = kind.writeRendered entity index := by
  cases kind <;> rfl

theorem parseIndexed_eq (kind : IndexedNodeKind) (s : String) :
    parseIndexed kind s = (kind.parseRendered s).map fun p => ofIndexed kind p.1 p.2 := by
  cases kind <;>
    simp only [parseIndexed, ConstraintNodeId.fromStr, RealizationNodeId.fromStr,
      ResolutionNodeId.fromStr, ComputeNodeId.fromStr, ofIndexed] <;>
    cases IndexedNodeKind.parseRendered _ s <;> rfl

/-- A spelled text is the indexed node it spells. -/
theorem fromStr_of_spells {kind : IndexedNodeKind} {s entity : String} {ds : List Char}
    (h : kind.Spells s.toList entity.toList ds) :
    fromStr s = .ok (ofIndexed kind entity (UInt32.ofNat (Nat.ofDigitChars 10 ds 0))) := by
  have hparse := IndexedNodeKind.parseRendered_eq_ok_iff.mpr ⟨ds, h, rfl⟩
  simp only [fromStr, h.ofRenderedId, parseIndexed_eq, hparse, Except.map]

/-- A text that spells nothing is read as a value cell. -/
theorem fromStr_of_not_spells {s : String} {v : ValueCellId}
    (h : ¬ ∃ (kind : IndexedNodeKind) (entity : String) (ds : List Char),
      kind.Spells s.toList entity.toList ds)
    (hv : ValueCellId.fromStr s = .ok v) : fromStr s = .ok (value v) := by
  unfold fromStr
  cases hk : IndexedNodeKind.ofRenderedId s with
  | none => simp [hv]
  | some kind =>
    cases hparse : kind.parseRendered s with
    | ok p =>
      obtain ⟨entity, index⟩ := p
      obtain ⟨ds, hspell, -⟩ := IndexedNodeKind.parseRendered_eq_ok_iff.mp hparse
      exact absurd ⟨kind, entity, ds, hspell⟩ h
    | error e => simp [parseIndexed_eq, hparse, hv, Except.map]

/-- An indexed id with a non-empty entity free of `/`, `[` and `]`, or a value
cell with non-empty dot-free halves whose rendering is not that of such an
indexed id. -/
def Admissible : NodeId → Prop
  | value v => v.DotFree ∧
      ∀ (kind : IndexedNodeKind) (entity : String) (index : UInt32),
        IndexedNodeKind.EntityAdmissible entity.toList →
          v.display ≠ kind.writeRendered entity index
  | constraint c => IndexedNodeKind.EntityAdmissible c.entity.toList
  | realization r => IndexedNodeKind.EntityAdmissible r.entity.toList
  | resolution s => IndexedNodeKind.EntityAdmissible s.entity.toList
  | compute c => IndexedNodeKind.EntityAdmissible c.entity.toList

/-- A value cell whose rendering is `<entity>#<marker>[<ds>]` for an admissible
entity and a zero-padded numeral `ds` that fits a `u32`. -/
def PaddedIndex (n : NodeId) : Prop :=
  ∃ v, n = value v ∧ ∃ (kind : IndexedNodeKind) (entity : String) (ds : List Char),
    kind.Spells v.display.toList entity.toList ds ∧ ZeroPadded ds

theorem fromStr_display_ofIndexed (kind : IndexedNodeKind) {entity : String} (index : UInt32)
    (h : IndexedNodeKind.EntityAdmissible entity.toList) :
    fromStr (ofIndexed kind entity index).display = .ok (ofIndexed kind entity index) := by
  rw [display_ofIndexed, fromStr_of_spells (kind.spells_writeRendered index h),
    Nat.ofDigitChars_ten_toDigits, UInt32.ofNat_toNat]

theorem fromStr_display_value_iff {v : ValueCellId} (hv : v.DotFree) :
    fromStr (value v).display = .ok (value v) ↔
      ¬ ∃ (kind : IndexedNodeKind) (entity : String) (ds : List Char),
        kind.Spells v.display.toList entity.toList ds := by
  constructor
  · rintro h ⟨kind, entity, ds, hspell⟩
    rw [display, fromStr_of_spells hspell] at h
    exact ofIndexed_ne_value _ _ _ _ (Except.ok.inj h)
  · exact fun h => fromStr_of_not_spells h (ValueCellId.fromStr_display hv)

/-- An unpadded spelling is what some indexed id renders to. -/
theorem writeRendered_of_spells {kind : IndexedNodeKind} {s entity : String} {ds : List Char}
    (h : kind.Spells s.toList entity.toList ds) (hpad : ¬ ZeroPadded ds) :
    s = kind.writeRendered entity (UInt32.ofNat (Nat.ofDigitChars 10 ds 0)) := by
  obtain ⟨hs, -, hds, hfit⟩ := h
  apply String.toList_injective
  rw [IndexedNodeKind.toList_writeRendered, UInt32.toNat_ofNat_of_lt' hfit,
    toDigits_ofDigitChars hds hpad, hs]

/-- **The text round trip**: an admissible id is read back from its rendering
exactly when it is no value cell that spells a zero-padded index. -/
theorem fromStr_display_iff (n : NodeId) (hn : n.Admissible) :
    fromStr n.display = .ok n ↔ ¬ n.PaddedIndex := by
  have indexed (kind : IndexedNodeKind) (entity : String) (index : UInt32)
      (h : IndexedNodeKind.EntityAdmissible entity.toList) :
      fromStr (ofIndexed kind entity index).display = .ok (ofIndexed kind entity index) ↔
        ¬ (ofIndexed kind entity index).PaddedIndex :=
    iff_of_true (fromStr_display_ofIndexed kind index h)
      fun ⟨v, hv, _⟩ => ofIndexed_ne_value _ _ _ v hv
  cases n with
  | value v =>
    obtain ⟨hdot, hfree⟩ := hn
    rw [fromStr_display_value_iff hdot]
    refine not_congr ⟨?_, ?_⟩
    · rintro ⟨kind, entity, ds, hspell⟩
      refine ⟨v, rfl, kind, entity, ds, hspell, ?_⟩
      by_contra hpad
      exact hfree kind entity _ hspell.2.1 (writeRendered_of_spells hspell hpad)
    · rintro ⟨w, hw, kind, entity, ds, hspell, -⟩
      obtain rfl := NodeId.value.inj hw
      exact ⟨kind, entity, ds, hspell⟩
  | constraint c => exact indexed .constraint c.entity c.index hn
  | realization r => exact indexed .realization r.entity r.index hn
  | resolution s => exact indexed .resolution s.entity s.index hn
  | compute c => exact indexed .compute c.entity c.index hn

/-- An instance path as the entity of a constraint. -/
theorem fromStr_display_rigBolts :
    fromStr (constraint ⟨"Rig.bolts", 2⟩).display = .ok (constraint ⟨"Rig.bolts", 2⟩) ↔
      ¬ (constraint ⟨"Rig.bolts", 2⟩).PaddedIndex :=
  fromStr_display_iff _ (by simp only [Admissible, IndexedNodeKind.EntityAdmissible]; decide)

/-- A zero-padded spelling is no indexed id's own rendering. -/
theorem ne_writeRendered_of_zeroPadded {kind : IndexedNodeKind} {s entity : String}
    {ds : List Char} (h : kind.Spells s.toList entity.toList ds) (hpad : ZeroPadded ds)
    (kind' : IndexedNodeKind) (entity' : String) (index : UInt32)
    (hentity : IndexedNodeKind.EntityAdmissible entity'.toList) :
    s ≠ kind'.writeRendered entity' index := by
  rintro rfl
  obtain ⟨-, -, rfl⟩ := h.unique (kind'.spells_writeRendered index hentity)
  exact not_zeroPadded_toDigits _ hpad

/-- The member `x#constraint[007]` of `E` is read as a constraint of `E.x`. -/
theorem fromStr_display_padded_member :
    (value ⟨"E", "x#constraint[007]"⟩).Admissible ∧
      fromStr (value ⟨"E", "x#constraint[007]"⟩).display = .ok (constraint ⟨"E.x", 7⟩) ∧
      fromStr (value ⟨"E", "x#constraint[007]"⟩).display ≠
        .ok (value ⟨"E", "x#constraint[007]"⟩) := by
  have hspell : IndexedNodeKind.constraint.Spells
      (ValueCellId.display ⟨"E", "x#constraint[007]"⟩).toList "E.x".toList "007".toList := by
    refine ⟨by decide, ?_, ⟨by decide, List.all_eq_true.mp (by decide)⟩, by decide⟩
    simp only [IndexedNodeKind.EntityAdmissible]
    decide
  have hdot : ValueCellId.DotFree ⟨"E", "x#constraint[007]"⟩ := by
    simp only [ValueCellId.DotFree]
    decide
  have hread : fromStr (value ⟨"E", "x#constraint[007]"⟩).display =
      .ok (constraint ⟨"E.x", 7⟩) := by decide
  refine ⟨⟨hdot, fun kind entity index hentity => ?_⟩, hread, by simp [hread]⟩
  exact ne_writeRendered_of_zeroPadded hspell ⟨_, _, rfl⟩ kind entity index hentity

/-! ## Back to the text -/

/-- A text that spells an indexed id with a zero-padded index. -/
def SpellsPadded (s : String) : Prop :=
  ∃ (kind : IndexedNodeKind) (entity : String) (ds : List Char),
    kind.Spells s.toList entity.toList ds ∧ ZeroPadded ds

/-- A text that is read spells the indexed node it is read as, or is read as a value cell. -/
theorem fromStr_cases {s : String} {n : NodeId} (h : fromStr s = .ok n) :
    (∃ (kind : IndexedNodeKind) (entity : String) (ds : List Char),
      kind.Spells s.toList entity.toList ds ∧
        n = ofIndexed kind entity (UInt32.ofNat (Nat.ofDigitChars 10 ds 0))) ∨
      ∃ v, ValueCellId.fromStr s = .ok v ∧ n = value v := by
  unfold fromStr at h
  split at h
  · -- No marker: the value-cell grammar alone.
    split at h
    · rename_i v hv
      cases h
      exact .inr ⟨v, hv, rfl⟩
    · cases h
  · rename_i kind hkind
    split at h
    · rename_i n' hn'
      cases h
      rw [parseIndexed_eq] at hn'
      rcases hparse : kind.parseRendered s with e | ⟨entity, index⟩
      · rw [hparse] at hn'
        cases hn'
      · rw [hparse] at hn'
        cases hn'
        obtain ⟨ds, hspell, rfl⟩ := IndexedNodeKind.parseRendered_eq_ok_iff.mp hparse
        exact .inl ⟨kind, entity, ds, hspell, rfl⟩
    · -- The fallback from the indexed reading.
      split at h
      · rename_i v hv
        cases h
        exact .inr ⟨v, hv, rfl⟩
      · cases h

/-- **Canonical texts.**  Whatever a text is read as is written as that very text, exactly
when the text does not spell an index with leading zeros. -/
theorem display_fromStr_iff (s : String) :
    (∀ n, fromStr s = .ok n → n.display = s) ↔ ¬ SpellsPadded s := by
  constructor
  · rintro h ⟨kind, entity, ds, hspell, hpad⟩
    have hwritten := h _ (fromStr_of_spells hspell)
    rw [display_ofIndexed] at hwritten
    exact ne_writeRendered_of_zeroPadded hspell hpad kind entity _ hspell.2.1 hwritten.symm
  · intro hpad n hn
    rcases fromStr_cases hn with ⟨kind, entity, ds, hspell, rfl⟩ | ⟨v, hv, rfl⟩
    · rw [display_ofIndexed]
      exact (writeRendered_of_spells hspell fun h => hpad ⟨kind, entity, ds, hspell, h⟩).symm
    · exact ValueCellId.display_of_fromStr hv

/-- `E#constraint[007]` and `E#constraint[7]` name one constraint. -/
theorem display_fromStr_padded :
    fromStr "E#constraint[007]" = .ok (constraint ⟨"E", 7⟩) ∧
      fromStr "E#constraint[7]" = .ok (constraint ⟨"E", 7⟩) ∧
      (constraint ⟨"E", 7⟩).display = "E#constraint[7]" ∧
      ¬ ∀ (s : String) (n : NodeId), fromStr s = .ok n → n.display = s := by
  have hread : fromStr "E#constraint[007]" = .ok (constraint ⟨"E", 7⟩) := by decide
  have hwritten : (constraint ⟨"E", 7⟩).display = "E#constraint[7]" := by decide
  refine ⟨hread, by decide, hwritten, fun h => ?_⟩
  have hpadded := h _ _ hread
  rw [hwritten] at hpadded
  revert hpadded
  decide

end NodeId

end Reify
