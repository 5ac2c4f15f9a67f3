import Mathlib.Algebra.Order.Group.Abs
import Reify.Core.FloatValue
import Reify.Eval.ToleranceBucket
import Reify.Ir.ValueLaws

/-!
# The significance filter

When a solver has run again, its result is compared with the one before, and where the two are
equivalent what depends on it is not marked dirty.  The displacements of an elastic result may
differ by the tolerance of a length; the other parts are to be equal.

The filter compares the parts by a list of keys.  A part of the result that is not on the list,
and the types of the displacement field, are not compared.

## Main definitions

* `significanceFilter`.
* `WithinTolerance`: the results that may be taken for equivalent.
* `UncomparedAgree`: what the filter does not look at.

## Main results

* `significanceFilter_eq_equivalent_iff`: when the filter takes results for equivalent.
* `soundFilter_iff`: the filter hides nothing, unless a part differs that it does not look at.
-/

namespace Reify.Significance

open Value

variable {H : Type} [ContentHashing H] [HashBits H] [DecidableEq H]

/-! ## The filter -/

/-- What the filter says of two results. -/
inductive FilterOutcome where
  | equivalent
  | different
  | notOptedIn
deriving DecidableEq, Repr

/-- The target of the elastic solver, and that of the buckling solver. -/
def elasticStatic : String := "solver::elastic_static"

def buckling : String := "solver::buckling"

/-- Whether the results of a target are compared at all. -/
def isOptedIn (target : String) : Bool := decide (target ∈ [elasticStatic, buckling])

/-- The key of the displacement field. -/
def displacementKey : String := "displacement"

/-- The keys of the parts that have to be equal. -/
def nonDisplacementKeys : List String := ["stress", "max_von_mises", "converged", "iterations"]

/-- Both are finite, and differ by the tolerance at most. -/
def realsWithinTol (p n tol : F64) : Bool :=
  p.isFinite && n.isFinite && decide (|p.toRat - n.toRat| ≤ tol.toRat)

/-- The value under a key: the one whose key compares equal. -/
def mapGet (entries : List (Value H × Value H)) (key : Value H) : Option (Value H) :=
  (entries.find? fun e => decide (key.cmp e.1 = some .eq)).map Prod.snd

/-- The samples of a sampled field. -/
def asSampledField : Value H → Option SampledField
  | .field _ _ .sampled (.sampledField f) => some f
  | _ => none

/-- Everything is equal but the samples and the flag of the warning. -/
def gridMetadataEq (a b : SampledField) : Bool :=
  decide (a.name = b.name) && decide (a.kind = b.kind) &&
    decide (a.interpolation = b.interpolation) && floatsBeq a.boundsMin b.boundsMin &&
    floatsBeq a.boundsMax b.boundsMax && floatsBeq a.spacing b.spacing &&
    decide (a.axisGrids.length = b.axisGrids.length) &&
    (a.axisGrids.zip b.axisGrids).all fun p => floatsBeq p.1 p.2

/-- The comparison of two elastic results. -/
def elasticSignificance (prev new : Value H) (tolSi : F64) : FilterOutcome :=
  match prev, new with
  | .map prevMap, .map newMap =>
    if nonDisplacementKeys.any fun key =>
        !beqOption (mapGet prevMap (.string key)) (mapGet newMap (.string key)) then .different
    else
      match (mapGet prevMap (.string displacementKey)).bind asSampledField,
        (mapGet newMap (.string displacementKey)).bind asSampledField with
      | some prevSf, some newSf =>
        if prevSf.data.length ≠ newSf.data.length then .different
        else if !gridMetadataEq prevSf newSf then .different
        else if (prevSf.data.zip newSf.data).all fun p => realsWithinTol p.1 p.2 tolSi then
          .equivalent
        else .different
      | _, _ => .different
  | _, _ => .different

/-- The comparison of the results of a target.  That of buckling results is a parameter. -/
def significanceFilter (bucklingResultSignificance : Value H → Value H → F64 → FilterOutcome)
    (target : String) (prev new : Value H) (lengthToleranceSi : Option F64) : FilterOutcome :=
  if !isOptedIn target then .notOptedIn
  else if prev.beq new then .equivalent
  else
    match lengthToleranceSi.filter isValidToleranceSi with
    | none => .different
    | some tolSi =>
      if target = buckling then bucklingResultSignificance prev new tolSi
      else elasticSignificance prev new tolSi

/-! ## What it compares -/

/-- Samples that are finite and differ by the tolerance at most. -/
def SamplesWithin (tol : F64) (xs ys : List F64) : Prop :=
  List.Forall₂ (fun x y => x.isFinite = true ∧ y.isFinite = true ∧
    |x.toRat - y.toRat| ≤ tol.toRat) xs ys

/-- Two fields that agree but for their samples, which differ by the tolerance at most. -/
structure FieldsWithin (tol : F64) (f g : SampledField) : Prop where
  metadata : { f with data := g.data, oobEmitted := g.oobEmitted } = g
  samples : SamplesWithin tol f.data g.data

/-- The results that the filter takes for equivalent: the keys on its list agree, and the
displacements are sampled fields within the tolerance. -/
structure ComparedWithin (tol : F64) (prev new : List (Value H × Value H)) : Prop where
  listed : ∀ key ∈ nonDisplacementKeys,
    beqOption (mapGet prev (.string key)) (mapGet new (.string key)) = true
  displacement : ∃ f g, (mapGet prev (.string displacementKey)).bind asSampledField = some f ∧
    (mapGet new (.string displacementKey)).bind asSampledField = some g ∧ FieldsWithin tol f g

variable {prev new : Value H} {tol : F64} {f g : SampledField}

theorem gridMetadataEq_iff :
    gridMetadataEq f g = true ↔ { f with data := g.data, oobEmitted := g.oobEmitted } = g := by
  have hgrids := @gridsBeq_iff f.axisGrids g.axisGrids
  cases f
  cases g
  simp only [gridMetadataEq, Bool.and_eq_true, decide_eq_true_eq, floatsBeq_iff, and_assoc, hgrids,
    SampledField.mk.injEq, and_true]
  tauto

theorem realsWithinTol_iff {x y : F64} :
    realsWithinTol x y tol = true ↔
      x.isFinite = true ∧ y.isFinite = true ∧ |x.toRat - y.toRat| ≤ tol.toRat := by
  rw [realsWithinTol, Bool.and_eq_true, Bool.and_eq_true, decide_eq_true_eq, and_assoc]

theorem samplesWithin_iff {xs ys : List F64} :
    SamplesWithin tol xs ys ↔
      xs.length = ys.length ∧ ((xs.zip ys).all fun p => realsWithinTol p.1 p.2 tol) = true := by
  rw [SamplesWithin, List.forall₂_iff_zip, List.all_eq_true]
  refine and_congr_right fun _ => ?_
  constructor
  · rintro h ⟨x, y⟩ hmem
    exact realsWithinTol_iff.mpr (h hmem)
  · intro h x y hmem
    exact realsWithinTol_iff.mp (h (x, y) hmem)

theorem elasticSignificance_eq_equivalent_iff :
    elasticSignificance prev new tol = .equivalent ↔
      ∃ p n, prev = .map p ∧ new = .map n ∧ ComparedWithin tol p n := by
  constructor
  · intro h
    unfold elasticSignificance at h
    split at h
    · next p n =>
      refine ⟨p, n, rfl, rfl, ?_⟩
      split at h
      · cases h
      · next hlisted =>
        split at h
        · next f g hf hg =>
          split at h
          · cases h
          · next hlength =>
            split at h
            · cases h
            · next hmetadata =>
              split at h
              · next hall =>
                constructor
                case listed =>
                  intro key hkey
                  by_contra hne
                  exact hlisted (List.any_eq_true.mpr ⟨key, hkey, by simpa using hne⟩)
                case displacement =>
                  refine ⟨f, g, hf, hg, gridMetadataEq_iff.mp (by simpa using hmetadata), ?_⟩
                  exact samplesWithin_iff.mpr ⟨not_not.mp hlength, hall⟩
              · cases h
        · cases h
    · cases h
  · rintro ⟨p, n, rfl, rfl, hlisted, f, g, hf, hg, hmetadata, hsamples⟩
    obtain ⟨hlength, hall⟩ := samplesWithin_iff.mp hsamples
    have hany : ¬(nonDisplacementKeys.any fun key =>
        !beqOption (mapGet p (.string key)) (mapGet n (.string key))) = true := by
      intro hany
      obtain ⟨key, hkey, hne⟩ := List.any_eq_true.mp hany
      rw [hlisted key hkey] at hne
      cases hne
    simp only [elasticSignificance, if_neg hany, hf, hg, if_neg (not_not_intro hlength),
      gridMetadataEq_iff.mpr hmetadata, Bool.not_true, Bool.false_eq_true, if_false, hall, if_true]

section Filter

variable {bucklingResultSignificance : Value H → Value H → F64 → FilterOutcome} {t : Option F64}

/-- **When the filter takes two elastic results for equivalent.** -/
theorem significanceFilter_eq_equivalent_iff :
    significanceFilter bucklingResultSignificance elasticStatic prev new t = .equivalent ↔
      prev.beq new = true ∨ ∃ tol, t = some tol ∧ isValidToleranceSi tol = true ∧
        ∃ p n, prev = .map p ∧ new = .map n ∧ ComparedWithin tol p n := by
  have hopted : isOptedIn elasticStatic = true := by decide
  have helastic : elasticStatic ≠ buckling := by decide
  rw [significanceFilter, hopted, Bool.not_true, if_neg Bool.false_ne_true]
  by_cases heq : prev.beq new = true
  · simp [heq]
  · rw [if_neg heq, or_iff_right heq]
    cases htol : t.filter isValidToleranceSi with
    | none =>
      constructor
      · intro h
        cases h
      · rintro ⟨tol, rfl, hvalid, -⟩
        rw [Option.filter_some, if_pos hvalid] at htol
        cases htol
    | some tol =>
      obtain ⟨rfl, hvalid⟩ := Option.filter_eq_some_iff.mp htol
      simp only [if_neg helastic, elasticSignificance_eq_equivalent_iff]
      constructor
      · exact fun h => ⟨tol, rfl, hvalid, h⟩
      · rintro ⟨tol', htol', -, h⟩
        obtain rfl := Option.some.inj htol'
        exact h

theorem elasticSignificance_ne_notOptedIn : elasticSignificance prev new tol ≠ .notOptedIn := by
  unfold elasticSignificance
  repeat' split
  all_goals exact fun h => FilterOutcome.noConfusion h

/-- Elastic results are equivalent or different. -/
theorem significanceFilter_ne_notOptedIn :
    significanceFilter bucklingResultSignificance elasticStatic prev new t ≠ .notOptedIn := by
  have hopted : isOptedIn elasticStatic = true := by decide
  rw [significanceFilter, hopted, Bool.not_true, if_neg Bool.false_ne_true]
  split
  · exact fun h => FilterOutcome.noConfusion h
  · split
    · exact fun h => FilterOutcome.noConfusion h
    · exact elasticSignificance_ne_notOptedIn

end Filter

/-! ## Symmetry and growth -/

theorem beq_comm_of_wf (ha : prev.WF) (hb : new.WF) : prev.beq new = new.beq prev := by
  rw [Bool.eq_iff_iff, beq_iff_key ha hb, beq_iff_key hb ha]
  exact eq_comm

omit [DecidableEq H] in
theorem wf_of_mapGet {entries : List (Value H × Value H)} {key v : Value H}
    (hwf : (Value.map entries).WF) (h : mapGet entries key = some v) : v.WF := by
  obtain ⟨e, he, rfl⟩ := Option.map_eq_some_iff.mp h
  apply hwf.child
  exact List.mem_flatMap.mpr ⟨e, List.mem_of_find?_eq_some he, by simp⟩

/-- Equality of parts is symmetric, for parts of well-formed results. -/
theorem beqOption_comm {p n : List (Value H × Value H)} (hp : (Value.map p).WF)
    (hn : (Value.map n).WF) (key : Value H) :
    beqOption (mapGet p key) (mapGet n key) = beqOption (mapGet n key) (mapGet p key) := by
  cases hv : mapGet p key with
  | none => cases mapGet n key <;> rfl
  | some v =>
    cases hw : mapGet n key with
    | none => rfl
    | some w => exact beq_comm_of_wf (wf_of_mapGet hp hv) (wf_of_mapGet hn hw)

omit [ContentHashing H] [HashBits H] [DecidableEq H] in
theorem FieldsWithin.symm (h : FieldsWithin tol f g) : FieldsWithin tol g f where
  metadata := by
    rw [← h.metadata]
  samples := by
    refine (h.samples.imp ?_).flip
    rintro x y ⟨hx, hy, hxy⟩
    exact ⟨hy, hx, abs_sub_comm x.toRat y.toRat ▸ hxy⟩

theorem ComparedWithin.symm {p n : List (Value H × Value H)} (hp : (Value.map p).WF)
    (hn : (Value.map n).WF) (h : ComparedWithin tol p n) : ComparedWithin tol n p where
  listed key hkey := by
    rw [beqOption_comm hn hp]
    exact h.listed key hkey
  displacement := by
    obtain ⟨f, g, hf, hg, hwithin⟩ := h.displacement
    exact ⟨g, f, hg, hf, hwithin.symm⟩

omit [ContentHashing H] [HashBits H] [DecidableEq H] in
theorem FieldsWithin.mono {tol' : F64} (htol : tol.toRat ≤ tol'.toRat) (h : FieldsWithin tol f g) :
    FieldsWithin tol' f g where
  metadata := h.metadata
  samples := h.samples.imp fun _ _ hxy => ⟨hxy.1, hxy.2.1, hxy.2.2.trans htol⟩

theorem ComparedWithin.mono {p n : List (Value H × Value H)} {tol' : F64}
    (htol : tol.toRat ≤ tol'.toRat) (h : ComparedWithin tol p n) : ComparedWithin tol' p n where
  listed := h.listed
  displacement := by
    obtain ⟨f, g, hf, hg, hwithin⟩ := h.displacement
    exact ⟨f, g, hf, hg, hwithin.mono htol⟩

/-! ## What it does not compare -/

/-- Maps that agree at every key but the displacement, and there have sampled fields of the same
types within the tolerance. -/
structure WithinTolerance (tol : F64) (prev new : List (Value H × Value H)) : Prop where
  others : ∀ key : Value H, key ≠ .string displacementKey →
    beqOption (mapGet prev key) (mapGet new key) = true
  displacement : ∃ domain codomain f g,
    mapGet prev (.string displacementKey) =
      some (.field domain codomain .sampled (.sampledField f)) ∧
    mapGet new (.string displacementKey) =
      some (.field domain codomain .sampled (.sampledField g)) ∧ FieldsWithin tol f g

/-- What the filter does not look at agrees: the keys that are not on its list, and the types of
the displacement fields. -/
structure UncomparedAgree (prev new : List (Value H × Value H)) : Prop where
  unlisted : ∀ key : Value H,
    (∀ name ∈ displacementKey :: nonDisplacementKeys, key ≠ .string name) →
      beqOption (mapGet prev key) (mapGet new key) = true
  types : ∀ {domain codomain lambda domain' codomain' lambda'},
    mapGet prev (.string displacementKey) = some (.field domain codomain .sampled lambda) →
      mapGet new (.string displacementKey) = some (.field domain' codomain' .sampled lambda') →
        domain = domain' ∧ codomain = codomain'

omit [ContentHashing H] [HashBits H] [DecidableEq H] in
theorem asSampledField_eq_some_iff {v : Value H} :
    asSampledField v = some f ↔
      ∃ domain codomain, v = .field domain codomain .sampled (.sampledField f) := by
  constructor
  · intro h
    unfold asSampledField at h
    split at h
    · next domain codomain _ =>
      obtain rfl := Option.some.inj h
      exact ⟨domain, codomain, rfl⟩
    · cases h
  · rintro ⟨domain, codomain, rfl⟩
    rfl

/-- What is compared and what is not make up the results. -/
theorem withinTolerance_iff {p n : List (Value H × Value H)} :
    WithinTolerance tol p n ↔ ComparedWithin tol p n ∧ UncomparedAgree p n := by
  constructor
  · intro h
    obtain ⟨domain, codomain, f, g, hf, hg, hwithin⟩ := h.displacement
    refine ⟨⟨fun key hkey => ?_, f, g, ?_, ?_, hwithin⟩, fun key hkey => ?_, ?_⟩
    · apply h.others
      rintro heq
      obtain rfl := Value.string.inj heq
      exact absurd hkey (by decide)
    · rw [hf]
      rfl
    · rw [hg]
      rfl
    · exact h.others key (hkey displacementKey List.mem_cons_self)
    · intro domain₁ codomain₁ lambda₁ domain₂ codomain₂ lambda₂ hprev hnew
      obtain ⟨rfl, rfl, -, -⟩ := Value.field.inj (Option.some.inj (hf.symm.trans hprev))
      obtain ⟨rfl, rfl, -, -⟩ := Value.field.inj (Option.some.inj (hg.symm.trans hnew))
      exact ⟨rfl, rfl⟩
  · rintro ⟨hcompared, hagree⟩
    obtain ⟨f, g, hf, hg, hwithin⟩ := hcompared.displacement
    obtain ⟨v, hv, hvf⟩ := Option.bind_eq_some_iff.mp hf
    obtain ⟨w, hw, hwg⟩ := Option.bind_eq_some_iff.mp hg
    obtain ⟨domain, codomain, rfl⟩ := asSampledField_eq_some_iff.mp hvf
    obtain ⟨domain', codomain', rfl⟩ := asSampledField_eq_some_iff.mp hwg
    obtain ⟨rfl, rfl⟩ := hagree.types hv hw
    refine ⟨fun key hkey => ?_, domain, codomain, f, g, hv, hw, hwithin⟩
    by_cases hlisted : ∃ name ∈ nonDisplacementKeys, key = .string name
    · obtain ⟨name, hname, rfl⟩ := hlisted
      exact hcompared.listed name hname
    · apply hagree.unlisted
      intro name hname heq
      rcases List.mem_cons.mp hname with rfl | hname
      · exact hkey heq
      · exact hlisted ⟨name, hname, heq⟩

/-! ## Whether the filter is sound -/

section Sound

variable (bucklingResultSignificance : Value H → Value H → F64 → FilterOutcome)

/-- What the filter has to keep for two results: it takes them for equivalent only if they are,
whichever comes first, and still does so when the tolerance is enlarged. -/
structure SoundFilter (prev new : Value H) (t : Option F64) : Prop where
  material : significanceFilter bucklingResultSignificance elasticStatic prev new t = .equivalent →
    prev.beq new = true ∨ ∃ tol, t = some tol ∧ isValidToleranceSi tol = true ∧
      ∃ p n, prev = .map p ∧ new = .map n ∧ WithinTolerance tol p n
  symmetric : significanceFilter bucklingResultSignificance elasticStatic prev new t =
    significanceFilter bucklingResultSignificance elasticStatic new prev t
  growing : ∀ tol tol', t = some tol → isValidToleranceSi tol = true →
    isValidToleranceSi tol' = true → tol.toRat ≤ tol'.toRat →
      significanceFilter bucklingResultSignificance elasticStatic prev new t = .equivalent →
        significanceFilter bucklingResultSignificance elasticStatic prev new (some tol') = .equivalent

/-- Two unequal results that agree in what the filter looks at, and differ elsewhere. -/
def DiffersElsewhere (prev new : Value H) (t : Option F64) : Prop :=
  prev.beq new = false ∧ ∃ tol, t = some tol ∧ isValidToleranceSi tol = true ∧
    ∃ p n, prev = .map p ∧ new = .map n ∧ ComparedWithin tol p n ∧ ¬UncomparedAgree p n

/-- **The filter hides nothing, unless a part differs that it does not look at.** -/
theorem soundFilter_iff (t : Option F64) (hprev : prev.WF) (hnew : new.WF) :
    SoundFilter bucklingResultSignificance prev new t ↔ ¬DiffersElsewhere prev new t := by
  constructor
  · rintro hsound ⟨hne, tol, rfl, hvalid, p, n, rfl, rfl, hcompared, hdiffers⟩
    have hequivalent : significanceFilter bucklingResultSignificance elasticStatic (.map p) (.map n)
        (some tol) = .equivalent :=
      significanceFilter_eq_equivalent_iff.mpr
        (.inr ⟨tol, rfl, hvalid, p, n, rfl, rfl, hcompared⟩)
    rcases hsound.material hequivalent with heq | ⟨tol', -, -, p', n', hp, hn, hwithin⟩
    · rw [hne] at heq
      cases heq
    · obtain rfl := Value.map.inj hp
      obtain rfl := Value.map.inj hn
      exact hdiffers (withinTolerance_iff.mp hwithin).2
  · intro hagree
    constructor
    case material =>
      intro h
      rcases significanceFilter_eq_equivalent_iff.mp h with heq | ⟨tol, rfl, hvalid, p, n, rfl, rfl, hcompared⟩
      · exact .inl heq
      · by_cases heq : (Value.map p).beq (.map n) = true
        · exact .inl heq
        · refine .inr ⟨tol, rfl, hvalid, p, n, rfl, rfl, withinTolerance_iff.mpr ⟨hcompared, ?_⟩⟩
          by_contra hdiffers
          exact hagree ⟨Bool.eq_false_iff.mpr heq, tol, rfl, hvalid, p, n, rfl, rfl, hcompared,
            hdiffers⟩
    case symmetric =>
      have hswap {a b : Value H} (ha : a.WF) (hb : b.WF)
          (h : significanceFilter bucklingResultSignificance elasticStatic a b t = .equivalent) :
          significanceFilter bucklingResultSignificance elasticStatic b a t = .equivalent := by
        apply significanceFilter_eq_equivalent_iff.mpr
        rcases significanceFilter_eq_equivalent_iff.mp h with
          heq | ⟨tol, htol, hvalid, p, n, rfl, rfl, hcompared⟩
        · exact .inl (beq_comm_of_wf hb ha ▸ heq)
        · exact .inr ⟨tol, htol, hvalid, n, p, rfl, rfl, hcompared.symm ha hb⟩
      have hprevnew := @significanceFilter_ne_notOptedIn _ _ _ _ prev new
        bucklingResultSignificance t
      have hnewprev := @significanceFilter_ne_notOptedIn _ _ _ _ new prev
        bucklingResultSignificance t
      have hthere := hswap hprev hnew
      have hback := hswap hnew hprev
      -- both are equivalent, or both are different
      cases hforth : significanceFilter bucklingResultSignificance elasticStatic prev new t with
      | equivalent => exact (hthere hforth).symm
      | notOptedIn => exact (hprevnew hforth).elim
      | different =>
        cases hreverse : significanceFilter bucklingResultSignificance elasticStatic new prev t with
        | equivalent => exact hforth.symm.trans (hback hreverse)
        | notOptedIn => exact (hnewprev hreverse).elim
        | different => rfl
    case growing =>
      rintro tol tol' rfl hvalid hvalid' hle h
      apply significanceFilter_eq_equivalent_iff.mpr
      rcases significanceFilter_eq_equivalent_iff.mp h with
        heq | ⟨tol₁, htol₁, -, p, n, rfl, rfl, hcompared⟩
      · exact .inl heq
      · obtain rfl := Option.some.inj htol₁
        exact .inr ⟨tol', rfl, hvalid', p, n, rfl, rfl, hcompared.mono hle⟩

end Sound

/-! ## Results with a frame -/

/-- Displacements on a grid of one point. -/
def pointField : SampledField where
  name := "displacement"
  kind := .regular1D
  boundsMin := [F64.zero]
  boundsMax := [F64.zero]
  spacing := []
  axisGrids := [[F64.zero]]
  interpolation := .linear
  data := [F64.zero]
  oobEmitted := false

/-- An elastic result with a frame, its keys in order. -/
def resultOf (displacement : SampledField) (frame : Value PlainHash) :
    List (Value PlainHash × Value PlainHash) :=
  [(.string "converged", .bool true),
    (.string "displacement", .field .int .int .sampled (.sampledField displacement)),
    (.string "frame", frame), (.string "iterations", .int 7), (.string "stress", .undef)]

/-- The result of the point at rest. -/
def resultWithFrame (frame : Value PlainHash) : List (Value PlainHash × Value PlainHash) :=
  resultOf pointField frame

/-- The frame is not compared: the results differ by it, and are taken for equivalent. -/
theorem not_soundFilter_frame :
    ¬SoundFilter (fun _ _ _ => .different) (.map (resultWithFrame .undef))
      (.map (resultWithFrame (.bool true))) (some F64.zero) := by
  intro hsound
  have hwithin : FieldsWithin F64.zero pointField pointField := by
    refine ⟨rfl, .cons ⟨by decide, by decide, ?_⟩ .nil⟩
    simp [F64.toRat, F64.signedUnits, F64.zero, F64.magnitude, F64.signBit]
  have hcompared : ComparedWithin F64.zero (resultWithFrame .undef)
      (resultWithFrame (.bool true)) := by
    refine ⟨?_, pointField, pointField, rfl, rfl, hwithin⟩
    simp only [nonDisplacementKeys, List.forall_mem_cons]
    exact ⟨rfl, rfl, rfl, rfl, fun _ h => absurd h List.not_mem_nil⟩
  have hequivalent := (@significanceFilter_eq_equivalent_iff _ _ _ _ (.map (resultWithFrame .undef))
    (.map (resultWithFrame (.bool true))) (fun _ _ _ => .different) (some F64.zero)).mpr
    (.inr ⟨F64.zero, rfl, by decide, _, _, rfl, rfl, hcompared⟩)
  rcases hsound.material hequivalent with heq | ⟨_, -, -, p, n, hp, hn, hmaterial⟩
  · cases heq
  · obtain rfl := Value.map.inj hp
    obtain rfl := Value.map.inj hn
    have hframe := hmaterial.others (.string "frame") fun h => by
      have hkey := Value.string.inj h
      exact absurd hkey (by decide)
    cases hframe

theorem resultOf_wf (displacement : SampledField) (b : Bool) :
    (Value.map (resultOf displacement (.bool b))).WF := by
  have hleaf {v : Value PlainHash} (hformed : v.Formed) (hchildren : v.children = []) : v.WF :=
    .mk hformed fun w hw => absurd (hchildren ▸ hw) List.not_mem_nil
  refine .mk trivial fun v hv => ?_
  obtain ⟨e, he, hve⟩ := List.mem_flatMap.mp hv
  simp only [resultOf, List.mem_cons, List.not_mem_nil, or_false] at he
  rcases he with rfl | rfl | rfl | rfl | rfl <;>
    simp only [List.mem_cons, List.not_mem_nil, or_false] at hve <;> rcases hve with rfl | rfl
  case inr.inl.inr =>
    refine .mk trivial fun w hw => ?_
    obtain rfl := List.mem_singleton.mp hw
    exact hleaf trivial rfl
  all_goals exact hleaf trivial rfl

/-- Only a string compares equal to a string. -/
theorem eq_string_of_cmp {H : Type} [ContentHashing H] [HashBits H] {key : Value H} {s : String}
    (h : key.cmp (.string s) = some .eq) : key = .string s := by
  have hsame := cmp_eq_eq_iff.mp h
  cases key with
  | string t =>
    simp [SameText, Value.key, Atom.text] at hsame
    rw [Atom.str.inj (Foundation.RoseTree.leaf_inj.mp hsame)]
  | _ => simp [SameText, Value.key, Atom.text] at hsame

/-- Results that differ in the displacement agree at the other keys. -/
theorem mapGet_resultOf {f g : SampledField} {frame key : Value PlainHash}
    (h : key ≠ .string displacementKey) :
    mapGet (resultOf f frame) key = mapGet (resultOf g frame) key := by
  have hne : ¬key.cmp (.string "displacement") = some .eq := fun heq => h (eq_string_of_cmp heq)
  simp only [mapGet, resultOf, List.find?_cons, hne, decide_false]

/-- A displacement of the smallest length. -/
def movedField : SampledField := { pointField with data := [⟨1⟩] }

theorem fieldsWithin_movedField : FieldsWithin ⟨1⟩ pointField movedField := by
  refine ⟨rfl, .cons ⟨by decide, by decide, ?_⟩ .nil⟩
  have hzero : F64.zero.toRat = 0 := by
    simp [F64.toRat, F64.signedUnits, F64.zero, F64.magnitude, F64.signBit]
  have hnonneg : 0 ≤ (⟨1⟩ : F64).toRat := by
    simp [F64.toRat, F64.signedUnits, F64.magnitude, F64.signBit]
    positivity
  rw [hzero, zero_sub, abs_neg, abs_of_nonneg hnonneg]

/-- Results with one frame whose displacements differ by the tolerance are compared soundly:
taken for equivalent, in both orders, and under any larger tolerance. -/
theorem soundFilter_iff_frame :
    (Value.map (resultOf pointField (.bool true))).beq
        (.map (resultOf movedField (.bool true))) = false ∧
      significanceFilter (fun _ _ _ => .different) elasticStatic
        (.map (resultOf pointField (.bool true))) (.map (resultOf movedField (.bool true)))
        (some ⟨1⟩) = .equivalent ∧
      SoundFilter (fun _ _ _ => .different) (.map (resultOf pointField (.bool true)))
        (.map (resultOf movedField (.bool true))) (some ⟨1⟩) := by
  have hcompared : ComparedWithin ⟨1⟩ (resultOf pointField (.bool true))
      (resultOf movedField (.bool true)) := by
    refine ⟨?_, pointField, movedField, rfl, rfl, fieldsWithin_movedField⟩
    simp only [nonDisplacementKeys, List.forall_mem_cons]
    exact ⟨rfl, rfl, rfl, rfl, fun _ h => absurd h List.not_mem_nil⟩
  refine ⟨by decide, significanceFilter_eq_equivalent_iff.mpr
    (.inr ⟨⟨1⟩, rfl, by decide, _, _, rfl, rfl, hcompared⟩), ?_⟩
  apply (soundFilter_iff (fun _ _ _ => .different) (some ⟨1⟩) (resultOf_wf pointField true)
    (resultOf_wf movedField true)).mpr
  rintro ⟨-, tol, -, -, p, n, hp, hn, -, hdiffers⟩
  obtain rfl := Value.map.inj hp
  obtain rfl := Value.map.inj hn
  refine hdiffers ⟨fun key hkey => ?_, fun hprev hnew => ?_⟩
  · -- the keys off the list have the same entries, which are equal to themselves
    rw [mapGet_resultOf (g := movedField) (hkey displacementKey List.mem_cons_self)]
    cases hget : mapGet (resultOf movedField (.bool true)) key with
    | none => rfl
    | some v =>
      have hwf := wf_of_mapGet (resultOf_wf movedField true) hget
      exact (beq_iff_key hwf hwf).mpr rfl
  · obtain ⟨rfl, rfl, -, -⟩ := Value.field.inj (Option.some.inj hprev)
    obtain ⟨rfl, rfl, -, -⟩ := Value.field.inj (Option.some.inj hnew)
    exact ⟨rfl, rfl⟩

end Reify.Significance
