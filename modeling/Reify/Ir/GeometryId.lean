import Reify.Core.NodeIdRoundTrip

/-!
# Geometry identities

A feature is the geometry of a realization or is derived from another feature.
Its text form is the realization's, followed by one `/<kind>` for each derivation
step, the innermost first.  A topology attribute names a face, an edge or a
vertex by its feature, its role there and the splits it went through.

## Main definitions

* `FeatureId`, with `display`, `fromStr` and the root `entity`.
* `Role`, `ModEntry`, `TopologyAttribute`.

## Main results

* `FeatureId.fromStr_display_eq_ok_iff`: the text is read back exactly when the root
  entity is one the realization grammar admits.
-/

namespace Reify

open Foundation

/-- How a feature is derived from its base. -/
inductive DerivedKind where
  | midSurface
deriving DecidableEq, Repr

/-- The identity of a geometry feature. -/
inductive FeatureId where
  | realization (node : RealizationNodeId)
  | derived (base : FeatureId) (kind : DerivedKind)
deriving DecidableEq, Repr

/-- Why a text names no feature. -/
inductive FeatureIdParseError where
  | empty
  | badRealization
  | unknownDerivedKind
  | trailing
deriving DecidableEq, Repr

/-- `str::strip_suffix` for a word. -/
def stripSuffixWord (suffix s : List Char) : Option (List Char) :=
  if suffix <:+ s then some (s.take (s.length - suffix.length)) else none

theorem stripSuffixWord_append (suffix s : List Char) :
    stripSuffixWord suffix (s ++ suffix) = some s := by
  rw [stripSuffixWord, if_pos (List.suffix_append s suffix)]
  simp

theorem length_of_stripSuffixWord {suffix s t : List Char}
    (h : stripSuffixWord suffix s = some t) : s.length = t.length + suffix.length := by
  rw [stripSuffixWord] at h
  split at h
  · next hsuffix =>
    cases h
    have hle := hsuffix.length_le
    rw [List.length_take]
    omega
  · cases h

/-- A word with a character that the text lacks is no suffix of it. -/
theorem stripSuffixWord_eq_none {suffix s : List Char} {c : Char} (hc : c ∈ suffix) (hs : c ∉ s) :
    stripSuffixWord suffix s = none := by
  rw [stripSuffixWord, if_neg]
  intro hsuffix
  exact hs (hsuffix.subset hc)

/-- The text of a derivation step. -/
def DerivedKind.suffix : DerivedKind → String
  | .midSurface => "/mid_surface"

namespace FeatureId

/-- The realization text and one suffix for each step. -/
def display : FeatureId → String
  | realization node => node.display
  | derived base kind => base.display ++ kind.suffix

/-- The entity of the realization at the root. -/
def entity : FeatureId → String
  | realization node => node.entity
  | derived base _ => base.entity

/-- Peels derivation steps off the right end, down to a realization. -/
def parse (s : List Char) : Except FeatureIdParseError FeatureId :=
  if s = [] then .error .empty
  else
    match _h : stripSuffixWord DerivedKind.midSurface.suffix.toList s with
    | some base =>
      if base = [] then .error .trailing
      else do
        let base ← parse base
        .ok (derived base .midSurface)
    | none =>
      -- An entity never contains a slash: what is left names an unknown step.
      if '/' ∈ s then .error .unknownDerivedKind
      else
        match RealizationNodeId.fromStr (String.ofList s) with
        | .error _ => .error .badRealization
        | .ok node => .ok (realization node)
termination_by s.length
decreasing_by
  have hlen := length_of_stripSuffixWord _h
  have hsuffix : DerivedKind.midSurface.suffix.toList.length = 12 := by decide
  omega

/-- `FromStr`. -/
def fromStr (s : String) : Except FeatureIdParseError FeatureId := parse s.toList

/-! ## The round trip -/

theorem toList_display_realization (node : RealizationNodeId) :
    (realization node).display.toList = node.entity.toList ++
      (IndexedNodeKind.realization.opener ++ (Nat.toDigits 10 node.index.toNat ++ [']'])) :=
  IndexedNodeKind.toList_writeRendered .realization node.entity node.index

theorem slash_not_mem_opener : '/' ∉ IndexedNodeKind.realization.opener := by decide

theorem slash_not_mem_toDigits (n : Nat) : '/' ∉ Nat.toDigits 10 n :=
  IndexedNodeKind.not_mem_numeral (isNumeral_toDigits n) (by decide)

theorem display_ne_nil (id : FeatureId) : id.display.toList ≠ [] := by
  induction id with
  | realization node =>
    rw [toList_display_realization]
    simp [IndexedNodeKind.opener]
  | derived base kind ih =>
    simp only [display, String.toList_append]
    exact List.append_ne_nil_of_left_ne_nil ih _

/-- A rendered realization node is read back exactly for an admissible entity. -/
theorem realizationNodeId_fromStr_display_iff (node : RealizationNodeId) :
    RealizationNodeId.fromStr node.display = .ok node ↔
      IndexedNodeKind.EntityAdmissible node.entity.toList := by
  obtain ⟨entity, index⟩ := node
  constructor
  · intro h
    rw [RealizationNodeId.fromStr] at h
    rcases hparse : IndexedNodeKind.realization.parseRendered
      (RealizationNodeId.display ⟨entity, index⟩) with e | ⟨entity', index'⟩
    · rw [hparse] at h
      cases h
    · rw [hparse] at h
      cases h
      obtain ⟨ds, hspell, -⟩ := IndexedNodeKind.parseRendered_eq_ok_iff.mp hparse
      exact hspell.2.1
  · intro h
    have hspell := IndexedNodeKind.spells_writeRendered .realization index h
    have hindex : index = UInt32.ofNat (Nat.ofDigitChars 10 (Nat.toDigits 10 index.toNat) 0) := by
      rw [Nat.ofDigitChars_ten_toDigits, UInt32.ofNat_toNat]
    have hparse := IndexedNodeKind.parseRendered_eq_ok_iff.mpr ⟨_, hspell, hindex⟩
    rw [RealizationNodeId.fromStr, RealizationNodeId.display, hparse]
    rfl

/-- An entity with a slash spoils the rendering: what is peeled off or left is no
realization of it. -/
theorem parse_realization_iff (node : RealizationNodeId) :
    parse (realization node).display.toList = .ok (realization node) ↔
      IndexedNodeKind.EntityAdmissible node.entity.toList := by
  have hne := display_ne_nil (realization node)
  constructor
  · intro h
    rw [parse, if_neg hne] at h
    split at h
    · next base hbase =>
      split at h
      · cases h
      · rcases hparse : parse base with e | id
        · rw [hparse] at h
          cases h
        · rw [hparse] at h
          cases h
    · split at h
      · cases h
      · split at h
        · cases h
        · next node' hnode =>
          cases h
          rw [String.ofList_toList] at hnode
          exact (realizationNodeId_fromStr_display_iff node).mp hnode
  · intro h
    have hslash : '/' ∉ (realization node).display.toList := by
      rw [toList_display_realization]
      simp only [List.mem_append, List.mem_singleton, not_or]
      exact ⟨h.2.1, slash_not_mem_opener, slash_not_mem_toDigits _, by decide⟩
    have hstrip : stripSuffixWord DerivedKind.midSurface.suffix.toList
        (realization node).display.toList = none :=
      stripSuffixWord_eq_none (by decide) hslash
    have hnode := (realizationNodeId_fromStr_display_iff node).mpr h
    rw [parse, if_neg hne]
    split
    · next base hbase =>
      rw [hstrip] at hbase
      cases hbase
    · rw [if_neg hslash, String.ofList_toList]
      simp only [display, hnode]

/-- **The text of a feature is read back** exactly when its root entity is
admissible. -/
theorem fromStr_display_eq_ok_iff (id : FeatureId) :
    fromStr id.display = .ok id ↔ IndexedNodeKind.EntityAdmissible id.entity.toList := by
  induction id with
  | realization node => exact parse_realization_iff node
  | derived base kind ih =>
    obtain rfl : kind = .midSurface := by cases kind; rfl
    have hlist : (derived base .midSurface).display.toList =
        base.display.toList ++ DerivedKind.midSurface.suffix.toList := by
      simp only [display, String.toList_append]
    have hstrip := stripSuffixWord_append DerivedKind.midSurface.suffix.toList base.display.toList
    have hrun : fromStr (derived base .midSurface).display =
        (fromStr base.display).map fun base => derived base .midSurface := by
      rw [fromStr, hlist, parse, if_neg (List.append_ne_nil_of_left_ne_nil (display_ne_nil base) _)]
      split
      · next b hb =>
        rw [hstrip] at hb
        cases hb
        rw [if_neg (display_ne_nil base), fromStr]
        rcases parse base.display.toList with e | id
        · rfl
        · rfl
      · next hb =>
        rw [hstrip] at hb
        cases hb
    rw [hrun, entity, ← ih]
    rcases fromStr base.display with e | id
    · simp [Except.map]
    · simp [Except.map]

end FeatureId

/-! ## Topology attributes -/

/-- The side of an axis. -/
inductive AxisSign where
  | pos
  | neg
deriving DecidableEq, Repr

/-- Which cap of a feature. -/
inductive CapKind where
  | top
  | bottom
  | start
  | stop
deriving DecidableEq, Repr

/-- The role of a topology entity in its feature. -/
inductive Role where
  | cap (kind : CapKind)
  | side
  | newEdge
  | revolvedFace
  | axisFace
  | sweptFace
  | loftedFace
  | midSurfaceFace
  | midSurfaceEdge
  | localFeatureFace
  | cornerVertex (x y z : AxisSign)
  | capCornerVertex (face : CapKind)
deriving DecidableEq, Repr

/-- A split that a topology entity went through. -/
structure ModEntry where
  splittingFeatureId : FeatureId
  splitIndex : UInt32
deriving DecidableEq, Repr

/-- The persistent name of a topology entity. -/
structure TopologyAttribute where
  featureId : FeatureId
  role : Role
  localIndex : UInt32
  userLabel : Option String
  modHistory : List ModEntry
deriving DecidableEq, Repr

/-- The features that an attribute names. -/
def TopologyAttribute.featureIds (t : TopologyAttribute) : List FeatureId :=
  t.featureId :: t.modHistory.map ModEntry.splittingFeatureId

end Reify
