import Mathlib.Data.List.Basic
import Reify.Core.Diagnostic
import Reify.Foundation.HashMap
import Reify.Ir.RuntimeValue

/-!
# The enumeration of a containment tree

`self.children`, `self.members` and `self.descendants` list what a structure contains.  The
last goes through the subs of the subs, whose templates may contain each other in a circle:
it descends to a depth limit, and spends a budget of nodes that all enumerations of an
expression share.  It reports an error where it stops short.

The containment tree itself has no limit.  A node of it is a position: the slots that lead to
it, a collection having one for each of its elements.

## Main definitions

* `enumerateChildren`, `enumerateMembers`, `enumerateDescendants`.
* `ContainedAt`: the positions of the whole tree.
* `containmentListing`: the nodes down to some level, each before those it contains.

## Main results

* `mem_positions_iff`: the listing has the positions of its levels, once each.
* `enumeration_enumerateDescendants`: the enumeration takes as many nodes of the listing as the
  budget allows, and says whether nodes are missing.
-/

namespace Reify.StructuralQuery

open Foundation

variable {H : Type}

/-! ## Templates -/

/-- A sub: one instance, or a collection with a cell for its count. -/
structure SubComponentDecl where
  name : String
  structureName : String
  isCollection : Bool
  countCell : Option ValueCellId
deriving DecidableEq, Repr

/-- A structure or an occurrence. -/
structure TopologyTemplate where
  name : String
  subComponents : List SubComponentDecl
deriving DecidableEq, Repr

/-- The values of the cells. -/
abbrev ValueMap (H : Type) := HashMap ValueCellId (Value H)

/-- The first template of the name. -/
def findTemplate (templates : List TopologyTemplate) (name : String) : Option TopologyTemplate :=
  templates.find? fun template => decide (template.name = name)

/-- An element of a list of entities: the path, and the structure that is its type. -/
structure EntityRef where
  entityPath : String
  typeName : String
deriving DecidableEq, Repr

/-! ## Children and members -/

/-- The elements of a collection: none where the count is missing, or is not a number. -/
def instanceCount (values : ValueMap H) (sub : SubComponentDecl) : ℕ :=
  match sub.countCell with
  | some countCell =>
    match values.get countCell with
    | some (.int n) => n.toInt.toNat
    | _ => 0
  | none => 0

/-- A place in a template: its name there, and the structure that stands in it. -/
structure Slot where
  name : String
  structureName : String
deriving DecidableEq, Repr

/-- The slots of a sub, one for each element of a collection. -/
def slotsOf (values : ValueMap H) (sub : SubComponentDecl) : List Slot :=
  if sub.isCollection then
    (List.range (instanceCount values sub)).map fun idx =>
      ⟨sub.name ++ "[" ++ toString idx ++ "]", sub.structureName⟩
  else [⟨sub.name, sub.structureName⟩]

/-- The slots of a template, in the order of declaration. -/
def slots (values : ValueMap H) (template : TopologyTemplate) : List Slot :=
  template.subComponents.flatMap (slotsOf values)

/-- The entity in a slot below a path. -/
def Slot.entityRef (slot : Slot) (path : String) : EntityRef :=
  ⟨path ++ "." ++ slot.name, slot.structureName⟩

/-- One element for each sub. -/
def enumerateChildren (template : TopologyTemplate) : List EntityRef :=
  template.subComponents.map fun sub => ⟨template.name ++ "." ++ sub.name, sub.structureName⟩

/-- The elements of the collections, and the other subs. -/
def enumerateMembers (template : TopologyTemplate) (values : ValueMap H) : List EntityRef :=
  (slots values template).map fun slot => slot.entityRef template.name

/-! ## Descendants -/

/-- The nodes that may still be listed, and the errors reported. -/
structure ExpandState where
  nodeBudget : ℕ
  diagnostics : List Diagnostic
deriving DecidableEq, Repr

/-- Spends one node. -/
def ExpandState.spend (s : ExpandState) : ExpandState := { s with nodeBudget := s.nodeBudget - 1 }

/-- Reports an error. -/
def ExpandState.report (s : ExpandState) (message : String) : ExpandState :=
  { s with diagnostics := s.diagnostics ++ [Diagnostic.error message] }

/-- The message of the depth limit. -/
def depthMessage (maxDepth : ℕ) (path : String) : String :=
  "self.descendants: max depth " ++ toString maxDepth ++ " exceeded at '" ++ path ++
    "'; truncating"

/-- The message of the budget. -/
def budgetMessage (depth : ℕ) (path : String) : String :=
  "self.descendants: node budget exhausted at depth " ++ toString depth ++ " ('" ++ path ++
    "'); truncating"

/-- The loop over the slots of a template: it lists each and what is below it, and returns when
the budget is spent. -/
def descendLoop (allTemplates : List TopologyTemplate) (path : String) (depth : ℕ)
    (below : String → TopologyTemplate → ExpandState → List EntityRef × ExpandState) :
    List Slot → ExpandState → List EntityRef × ExpandState
  | [], s => ([], s)
  | slot :: rest, s =>
    if s.nodeBudget = 0 then ([], s.report (budgetMessage depth path))
    else
      let node := slot.entityRef path
      let inner := match findTemplate allTemplates slot.structureName with
        | some child => below node.entityPath child s.spend
        | none => ([], s.spend)
      let after := descendLoop allTemplates path depth below rest inner.2
      (node :: (inner.1 ++ after.1), after.2)

/-- The descent with some levels to go: `max_depth` less the depth. -/
def descendantsFrom (allTemplates : List TopologyTemplate) (values : ValueMap H) (maxDepth : ℕ) :
    ℕ → String → ℕ → TopologyTemplate → ExpandState → List EntityRef × ExpandState
  | 0, path, _, _, s => ([], s.report (depthMessage maxDepth path))
  | levels + 1, path, depth, template, s =>
    descendLoop allTemplates path depth
      (fun path child s => descendantsFrom allTemplates values maxDepth levels path (depth + 1) child s)
      (slots values template) s

/-- The subs of a template and those below them, each before what it contains. -/
def enumerateDescendants (template : TopologyTemplate) (allTemplates : List TopologyTemplate)
    (values : ValueMap H) (path : String) (depth maxDepth : ℕ) (s : ExpandState) :
    List EntityRef × ExpandState :=
  descendantsFrom allTemplates values maxDepth (maxDepth - depth) path depth template s

variable {allTemplates : List TopologyTemplate} {values : ValueMap H} {template : TopologyTemplate}

/-! ## The tree -/

/-- The positions of the containment tree: the slots that lead to a node. -/
inductive ContainedAt (allTemplates : List TopologyTemplate) (values : ValueMap H) :
    TopologyTemplate → List ℕ → Prop
  | slot {template : TopologyTemplate} {i : ℕ} {slot : Slot}
      (hslot : (slots values template)[i]? = some slot) :
      ContainedAt allTemplates values template [i]
  | inner {template child : TopologyTemplate} {i : ℕ} {slot : Slot} {position : List ℕ}
      (hslot : (slots values template)[i]? = some slot)
      (hchild : findTemplate allTemplates slot.structureName = some child)
      (hposition : ContainedAt allTemplates values child position) :
      ContainedAt allTemplates values template (i :: position)

/-- The nodes below a slot, by their positions there. -/
def innerListing (allTemplates : List TopologyTemplate)
    (below : String → TopologyTemplate → List (List ℕ × EntityRef)) (path : String)
    (slot : Slot) : List (List ℕ × EntityRef) :=
  match findTemplate allTemplates slot.structureName with
  | some child => below (slot.entityRef path).entityPath child
  | none => []

/-- A node, seen from the template above: the slot comes first in its position. -/
def lift (i : ℕ) (node : List ℕ × EntityRef) : List ℕ × EntityRef := (i :: node.1, node.2)

/-- A slot and the nodes below it. -/
def slotListing (allTemplates : List TopologyTemplate)
    (below : String → TopologyTemplate → List (List ℕ × EntityRef)) (path : String)
    (slot : Slot × ℕ) : List (List ℕ × EntityRef) :=
  ([slot.2], slot.1.entityRef path) ::
    (innerListing allTemplates below path slot.1).map (lift slot.2)

/-- The nodes of the containment tree down to some level, each with its position and before
those it contains, in the order of declaration. -/
def containmentListing (allTemplates : List TopologyTemplate) (values : ValueMap H) :
    ℕ → String → TopologyTemplate → List (List ℕ × EntityRef)
  | 0, _, _ => []
  | levels + 1, path, template =>
    (slots values template).zipIdx.flatMap
      (slotListing allTemplates (containmentListing allTemplates values levels) path)

/-! ### Positions -/

section Positions

variable {path : String} {levels : ℕ} {node : List ℕ × EntityRef}

theorem mem_containmentListing_succ :
    node ∈ containmentListing allTemplates values (levels + 1) path template ↔
      ∃ i slot, (slots values template)[i]? = some slot ∧
        (node = ([i], slot.entityRef path) ∨
          ∃ child, findTemplate allTemplates slot.structureName = some child ∧
            ∃ inner ∈ containmentListing allTemplates values levels
              (slot.entityRef path).entityPath child, node = lift i inner) := by
  rw [containmentListing, List.mem_flatMap]
  constructor
  · rintro ⟨⟨slot, i⟩, hslot, hnode⟩
    refine ⟨i, slot, List.mem_zipIdx_iff_getElem?.mp hslot, ?_⟩
    rcases List.mem_cons.mp hnode with hnode | hnode
    · exact .inl hnode
    · obtain ⟨inner, hinner, heq⟩ := List.mem_map.mp hnode
      unfold innerListing at hinner
      split at hinner
      · next child hchild => exact .inr ⟨child, hchild, inner, hinner, heq.symm⟩
      · exact absurd hinner List.not_mem_nil
  · rintro ⟨i, slot, hslot, hnode⟩
    refine ⟨(slot, i), List.mem_zipIdx_iff_getElem?.mpr hslot, ?_⟩
    rcases hnode with rfl | ⟨child, hchild, inner, hinner, rfl⟩
    · exact List.mem_cons_self
    · refine List.mem_cons_of_mem _ (List.mem_map_of_mem ?_)
      unfold innerListing
      rw [hchild]
      exact hinner

/-- **The listing has the positions of its levels.** -/
theorem mem_positions_iff {position : List ℕ} :
    position ∈ (containmentListing allTemplates values levels path template).map Prod.fst ↔
      ContainedAt allTemplates values template position ∧ position.length ≤ levels := by
  induction levels generalizing path template position with
  | zero =>
    constructor
    · exact fun h => absurd h List.not_mem_nil
    · rintro ⟨hposition, hlength⟩
      cases hposition <;> simp at hlength
  | succ levels ih =>
    rw [List.mem_map]
    constructor
    · rintro ⟨node, hnode, rfl⟩
      obtain ⟨i, slot, hslot, rfl | ⟨child, hchild, inner, hinner, rfl⟩⟩ :=
        mem_containmentListing_succ.mp hnode
      · exact ⟨.slot hslot, by simp⟩
      · obtain ⟨hposition, hlength⟩ := ih.mp (List.mem_map_of_mem hinner)
        refine ⟨.inner hslot hchild hposition, ?_⟩
        show (i :: inner.1).length ≤ levels + 1
        rw [List.length_cons]
        omega
    · rintro ⟨hposition, hlength⟩
      cases hposition with
      | slot hslot =>
        exact ⟨_, mem_containmentListing_succ.mpr ⟨_, _, hslot, .inl rfl⟩, rfl⟩
      | @inner _ child i slot position hslot hchild hposition =>
        have hshort : position.length ≤ levels := by
          rw [List.length_cons] at hlength
          omega
        obtain ⟨inner, hinner, rfl⟩ := List.mem_map.mp
          ((@ih child (slot.entityRef path).entityPath position).mpr ⟨hposition, hshort⟩)
        exact ⟨lift i inner,
          mem_containmentListing_succ.mpr ⟨i, slot, hslot, .inr ⟨child, hchild, inner, hinner, rfl⟩⟩,
          rfl⟩

/-- No position comes twice. -/
theorem positions_nodup (levels : ℕ) (path : String) (template : TopologyTemplate) :
    ((containmentListing allTemplates values levels path template).map Prod.fst).Nodup := by
  induction levels generalizing path template with
  | zero => exact List.nodup_nil
  | succ levels ih =>
    rw [containmentListing, List.map_flatMap, List.nodup_flatMap]
    have hhead {slot : Slot × ℕ} {position : List ℕ}
        (h : position ∈ (slotListing allTemplates (containmentListing allTemplates values levels)
          path slot).map Prod.fst) : position.head? = some slot.2 := by
      obtain ⟨node, hnode, rfl⟩ := List.mem_map.mp h
      rcases List.mem_cons.mp hnode with rfl | hnode
      · rfl
      · obtain ⟨inner, -, rfl⟩ := List.mem_map.mp hnode
        rfl
    refine ⟨fun slot _ => ?_, ?_⟩
    · rw [slotListing, List.map_cons, List.map_map, List.nodup_cons]
      constructor
      · -- a node below the slot has a longer position
        intro h
        obtain ⟨inner, hinner, heq⟩ := List.mem_map.mp h
        have hnil : inner.1 = [] := (List.cons.inj heq).2
        unfold innerListing at hinner
        split at hinner
        · next child hchild =>
          have hposition := (mem_positions_iff.mp (List.mem_map_of_mem hinner)).1
          rw [hnil] at hposition
          cases hposition
        · exact absurd hinner List.not_mem_nil
      · have hinner : ((innerListing allTemplates
            (containmentListing allTemplates values levels) path slot.1).map Prod.fst).Nodup := by
          unfold innerListing
          split
          · exact ih _ _
          · exact List.nodup_nil
        have hmap := hinner.map (List.cons_injective (a := slot.2))
        rw [List.map_map] at hmap
        exact hmap
    · -- the positions of two slots begin differently
      have hslots : ((slots values template).zipIdx.map Prod.snd).Nodup := by
        rw [List.zipIdx_map_snd]
        exact List.nodup_range'
      refine (List.pairwise_map.mp hslots).imp ?_
      intro a b hne position ha hb
      exact hne (Option.some.inj ((hhead ha).symm.trans (hhead hb)))

end Positions

/-! ## What the enumeration returns -/

/-- A node at the last level whose structure is known; the descent enters its template, and
reports the depth limit there. -/
def AtLimit (allTemplates : List TopologyTemplate) (levels : ℕ)
    (listed : List (List ℕ × EntityRef)) : Prop :=
  ∃ node ∈ listed, node.1.length = levels ∧
    (findTemplate allTemplates node.2.typeName).isSome = true

/-- An enumeration lists the first nodes of a listing, pays for them, and reports errors when the
budget does not cover the listing, or for another reason. -/
structure Lists (listing : List (List ℕ × EntityRef)) (stopped : List (List ℕ × EntityRef) → Prop)
    (s : ExpandState) (out : List EntityRef × ExpandState) : Prop where
  elements : out.1 = (listing.take s.nodeBudget).map Prod.snd
  budget : out.2.nodeBudget = s.nodeBudget - out.1.length
  reported : ∃ errors, out.2.diagnostics = s.diagnostics ++ errors ∧
    (∀ d ∈ errors, d.severity = .error) ∧
    (errors ≠ [] ↔ s.nodeBudget < listing.length ∨ stopped (listing.take s.nodeBudget))

theorem lists_nil {stopped : List (List ℕ × EntityRef) → Prop} (hstopped : ¬stopped [])
    (s : ExpandState) : Lists [] stopped s ([], s) where
  elements := by rw [List.take_nil, List.map_nil]
  budget := rfl
  reported := ⟨[], (List.append_nil _).symm, fun d hd => absurd hd List.not_mem_nil, by
    simp [hstopped]⟩

/-- An error alone, where nothing can be listed. -/
theorem lists_report {listing : List (List ℕ × EntityRef)}
    {stopped : List (List ℕ × EntityRef) → Prop} {s : ExpandState} (message : String)
    (hnone : listing.take s.nodeBudget = [])
    (hwhy : s.nodeBudget < listing.length ∨ stopped []) :
    Lists listing stopped s ([], s.report message) where
  elements := by rw [hnone, List.map_nil]
  budget := rfl
  reported := by
    refine ⟨[Diagnostic.error message], rfl, ?_, ?_⟩
    · intro d hd
      obtain rfl := List.mem_singleton.mp hd
      rfl
    · rw [hnone]
      exact ⟨fun _ => hwhy, fun _ => List.cons_ne_nil _ _⟩

/-- Listings one after the other: the second has the budget that the first left. -/
theorem Lists.append {first second : List (List ℕ × EntityRef)}
    {stopped : List (List ℕ × EntityRef) → Prop} {s : ExpandState}
    {out₁ out₂ : List EntityRef × ExpandState}
    (happend : ∀ as bs, stopped (as ++ bs) ↔ stopped as ∨ stopped bs)
    (h₁ : Lists first stopped s out₁) (h₂ : Lists second stopped out₁.2 out₂) :
    Lists (first ++ second) stopped s (out₁.1 ++ out₂.1, out₂.2) := by
  obtain ⟨errors₁, heq₁, herror₁, hiff₁⟩ := h₁.reported
  obtain ⟨errors₂, heq₂, herror₂, hiff₂⟩ := h₂.reported
  have hlength : out₁.1.length = min s.nodeBudget first.length := by
    rw [h₁.elements, List.length_map, List.length_take]
  have hleft : out₁.2.nodeBudget = s.nodeBudget - first.length := by
    rw [h₁.budget, hlength]
    omega
  constructor
  case elements =>
    rw [List.take_append, List.map_append, h₁.elements, h₂.elements, hleft]
  case budget =>
    show out₂.2.nodeBudget = s.nodeBudget - (out₁.1 ++ out₂.1).length
    rw [h₂.budget, h₁.budget, List.length_append]
    omega
  case reported =>
    refine ⟨errors₁ ++ errors₂, ?_, ?_, ?_⟩
    · show out₂.2.diagnostics = _
      rw [heq₂, heq₁, List.append_assoc]
    · intro d hd
      rcases List.mem_append.mp hd with hd | hd
      · exact herror₁ d hd
      · exact herror₂ d hd
    · have hbudget : s.nodeBudget < first.length ∨ s.nodeBudget - first.length < second.length ↔
          s.nodeBudget < (first ++ second).length := by
        rw [List.length_append]
        omega
      rw [ne_eq, List.append_eq_nil_iff, not_and_or, ← ne_eq, ← ne_eq, hiff₁, hiff₂, hleft,
        List.take_append, happend, ← hbudget]
      exact or_or_or_comm

theorem atLimit_append (levels : ℕ) (as bs : List (List ℕ × EntityRef)) :
    AtLimit allTemplates levels (as ++ bs) ↔
      AtLimit allTemplates levels as ∨ AtLimit allTemplates levels bs := by
  unfold AtLimit
  simp only [List.mem_append, or_and_right, exists_or]

theorem atLimit_slot {levels i : ℕ} {node : EntityRef} {listed : List (List ℕ × EntityRef)} :
    AtLimit allTemplates (levels + 1) (([i], node) :: listed.map (lift i)) ↔
      levels = 0 ∧ (findTemplate allTemplates node.typeName).isSome = true ∨
        AtLimit allTemplates levels listed := by
  unfold AtLimit
  simp only [List.mem_cons, List.mem_map, or_and_right, exists_or, exists_eq_left,
    List.length_cons, List.length_nil, lift, exists_exists_and_eq_and, Nat.add_right_cancel_iff,
    Nat.zero_add]
  constructor
  · rintro (⟨h, hknown⟩ | h)
    · exact .inl ⟨by omega, hknown⟩
    · exact .inr h
  · rintro (⟨h, hknown⟩ | h)
    · exact .inl ⟨by omega, hknown⟩
    · exact .inr h

/-- A slot is listed, and then what is below it with the budget that is left. -/
theorem lists_slot {levels i : ℕ} {path : String} {slot : Slot}
    {below : String → TopologyTemplate → ExpandState → List EntityRef × ExpandState}
    {listBelow : String → TopologyTemplate → List (List ℕ × EntityRef)}
    (hbelow : ∀ path child s, Lists (listBelow path child)
      (fun listed => levels = 0 ∨ AtLimit allTemplates levels listed) s (below path child s))
    {s : ExpandState} (hs : s.nodeBudget ≠ 0) {inner : List EntityRef × ExpandState}
    (hinner : inner = match findTemplate allTemplates slot.structureName with
      | some child => below (slot.entityRef path).entityPath child s.spend
      | none => ([], s.spend)) :
    Lists (slotListing allTemplates listBelow path (slot, i)) (AtLimit allTemplates (levels + 1)) s
      (slot.entityRef path :: inner.1, inner.2) := by
  -- the nodes below, with what stops the enumeration there
  have hlists : Lists (innerListing allTemplates listBelow path slot)
      (fun listed => levels = 0 ∧ (findTemplate allTemplates slot.structureName).isSome = true ∨
        AtLimit allTemplates levels listed) s.spend inner := by
    subst hinner
    unfold innerListing
    cases findTemplate allTemplates slot.structureName with
    | none => exact lists_nil (by simp [AtLimit]) s.spend
    | some child =>
      have hchild := hbelow (slot.entityRef path).entityPath child s.spend
      simpa using hchild
  obtain ⟨b, hb⟩ : ∃ b, s.nodeBudget = b + 1 := Nat.exists_eq_succ_of_ne_zero hs
  have hspend : s.spend.nodeBudget = b := by
    rw [ExpandState.spend, hb, Nat.add_sub_cancel]
  have htake : (slotListing allTemplates listBelow path (slot, i)).take s.nodeBudget =
      ([i], slot.entityRef path) ::
        ((innerListing allTemplates listBelow path slot).take b).map (lift i) := by
    rw [slotListing, hb, List.take_succ_cons, List.map_take]
  obtain ⟨errors, heq, herror, hiff⟩ := hlists.reported
  rw [hspend] at hiff
  constructor
  case elements =>
    rw [htake, List.map_cons, List.map_map, hlists.elements, hspend]
    rfl
  case budget =>
    show inner.2.nodeBudget = s.nodeBudget - (inner.1.length + 1)
    rw [hlists.budget, hspend, hb]
    omega
  case reported =>
    refine ⟨errors, heq, herror, ?_⟩
    have hlength : s.nodeBudget < (slotListing allTemplates listBelow path (slot, i)).length ↔
        b < (innerListing allTemplates listBelow path slot).length := by
      rw [slotListing, hb, List.length_cons, List.length_map, Nat.add_lt_add_iff_right]
    rw [htake, hlength, atLimit_slot, hiff]
    rfl

theorem lists_descendLoop {levels depth : ℕ} {path : String}
    {below : String → TopologyTemplate → ExpandState → List EntityRef × ExpandState}
    {listBelow : String → TopologyTemplate → List (List ℕ × EntityRef)}
    (hbelow : ∀ path child s, Lists (listBelow path child)
      (fun listed => levels = 0 ∨ AtLimit allTemplates levels listed) s (below path child s))
    (rest : List Slot) (i : ℕ) (s : ExpandState) :
    Lists ((rest.zipIdx i).flatMap (slotListing allTemplates listBelow path))
      (AtLimit allTemplates (levels + 1)) s
      (descendLoop allTemplates path depth below rest s) := by
  induction rest generalizing i s with
  | nil => exact lists_nil (by simp [AtLimit]) s
  | cons slot rest ih =>
    rw [descendLoop, List.zipIdx_cons, List.flatMap_cons]
    split
    · next hs =>
      apply lists_report
      · rw [hs, List.take_zero]
      · left
        rw [hs, List.length_append, slotListing, List.length_cons]
        omega
    · next hs =>
      have hslot := @lists_slot allTemplates levels i path slot below listBelow hbelow s hs _ rfl
      exact hslot.append (atLimit_append (levels + 1)) (ih (i + 1) _)

theorem lists_descendantsFrom (maxDepth levels : ℕ) (path : String) (depth : ℕ)
    (template : TopologyTemplate) (s : ExpandState) :
    Lists (containmentListing allTemplates values levels path template)
      (fun listed => levels = 0 ∨ AtLimit allTemplates levels listed) s
      (descendantsFrom allTemplates values maxDepth levels path depth template s) := by
  induction levels generalizing path depth template s with
  | zero => exact lists_report _ List.take_nil (.inr (.inl rfl))
  | succ levels ih =>
    have hloop := @lists_descendLoop allTemplates levels depth path _ _
      (fun path child s => ih path (depth + 1) child s) (slots values template) 0 s
    refine ⟨hloop.elements, hloop.budget, ?_⟩
    obtain ⟨errors, heq, herror, hiff⟩ := hloop.reported
    refine ⟨errors, heq, herror, hiff.trans ?_⟩
    rw [or_iff_right (Nat.succ_ne_zero levels)]
    rfl

/-! ### Missing nodes -/

/-- Above a node that is too deep there is one at the last level, whose structure is known. -/
theorem exists_atLimit {levels : ℕ} {path : String} {position : List ℕ}
    (h : ContainedAt allTemplates values template position) (hdeep : levels < position.length)
    (hlevels : levels ≠ 0) :
    AtLimit allTemplates levels (containmentListing allTemplates values levels path template) := by
  induction levels generalizing path template position with
  | zero => exact (hlevels rfl).elim
  | succ levels ih =>
    cases h with
    | slot hslot => simp at hdeep
    | @inner _ child i slot position hslot hchild hposition =>
      by_cases hlast : levels = 0
      · refine ⟨([i], slot.entityRef path), ?_, ?_, ?_⟩
        · exact mem_containmentListing_succ.mpr ⟨i, slot, hslot, .inl rfl⟩
        · rw [hlast]
          rfl
        · show (findTemplate allTemplates slot.structureName).isSome = true
          rw [hchild, Option.isSome_some]
      · have hdeep' : levels < position.length := by
          rw [List.length_cons] at hdeep
          omega
        obtain ⟨node, hnode, hlength, hknown⟩ :=
          @ih child (slot.entityRef path).entityPath position hposition hdeep' hlast
        refine ⟨lift i node, ?_, ?_, hknown⟩
        · exact mem_containmentListing_succ.mpr
            ⟨i, slot, hslot, .inr ⟨child, hchild, node, hnode, rfl⟩⟩
        · show (i :: node.1).length = levels + 1
          rw [List.length_cons, hlength]

/-- Some node of the tree is not among the nodes listed. -/
def LeftOut (allTemplates : List TopologyTemplate) (values : ValueMap H)
    (template : TopologyTemplate) (listed : List (List ℕ × EntityRef)) : Prop :=
  ∃ position, ContainedAt allTemplates values template position ∧ position ∉ listed.map Prod.fst

/-- What the budget does not cover is left out. -/
theorem leftOut_of_lt {levels budget : ℕ} {path : String}
    (h : budget < (containmentListing allTemplates values levels path template).length) :
    LeftOut allTemplates values template
      ((containmentListing allTemplates values levels path template).take budget) := by
  have hnodup := @positions_nodup _ allTemplates values levels path template
  have hmem (position : List ℕ) :=
    @mem_positions_iff _ allTemplates values template path levels position
  generalize containmentListing allTemplates values levels path template = listing at *
  have hsplit : listing = listing.take budget ++ listing[budget] :: listing.drop (budget + 1) := by
    rw [← List.drop_eq_getElem_cons h, List.take_append_drop]
  refine ⟨listing[budget].1, ?_, ?_⟩
  · exact ((hmem _).mp (List.mem_map_of_mem (List.getElem_mem h))).1
  · intro hlisted
    rw [hsplit, List.map_append, List.map_cons] at hnodup
    exact (List.nodup_append.mp hnodup).2.2 _ hlisted _ List.mem_cons_self rfl

/-- A node that is left out is not covered by the budget, or below a node at the limit. -/
theorem LeftOut.lt_or_atLimit {levels budget : ℕ} {path : String}
    (h : LeftOut allTemplates values template
      ((containmentListing allTemplates values levels path template).take budget)) :
    budget < (containmentListing allTemplates values levels path template).length ∨
      levels = 0 ∨ AtLimit allTemplates levels
        ((containmentListing allTemplates values levels path template).take budget) := by
  by_cases hlt : budget < (containmentListing allTemplates values levels path template).length
  · exact .inl hlt
  · right
    have hall : (containmentListing allTemplates values levels path template).take budget =
        containmentListing allTemplates values levels path template :=
      List.take_of_length_le (Nat.le_of_not_lt hlt)
    obtain ⟨position, hposition, hmissing⟩ := h
    rw [hall] at hmissing ⊢
    by_cases hlevels : levels = 0
    · exact .inl hlevels
    · have hdeep : levels < position.length := by
        by_contra hshort
        exact hmissing (mem_positions_iff.mpr ⟨hposition, Nat.le_of_not_lt hshort⟩)
      exact .inr (exists_atLimit hposition hdeep hlevels)

/-- What an enumeration with some levels to go promises: the first nodes of the listing as far as
the budget allows, the budget less these nodes, and errors where nodes are missing or the descent
entered a template at the limit. -/
structure Enumeration (allTemplates : List TopologyTemplate) (values : ValueMap H) (levels : ℕ)
    (path : String) (template : TopologyTemplate) (s : ExpandState)
    (out : List EntityRef × ExpandState) : Prop where
  elements : out.1 =
    ((containmentListing allTemplates values levels path template).take s.nodeBudget).map Prod.snd
  budget : out.2.nodeBudget + out.1.length = s.nodeBudget
  reported : ∃ errors, out.2.diagnostics = s.diagnostics ++ errors ∧
    (∀ d ∈ errors, d.severity = .error) ∧
    (errors ≠ [] ↔
      LeftOut allTemplates values template
        ((containmentListing allTemplates values levels path template).take s.nodeBudget) ∨
      levels = 0 ∨ AtLimit allTemplates levels
        ((containmentListing allTemplates values levels path template).take s.nodeBudget))

/-- **The enumeration is the listing of the tree, cut by the budget.** -/
theorem enumeration_enumerateDescendants (template : TopologyTemplate)
    (allTemplates : List TopologyTemplate) (values : ValueMap H) (path : String)
    (depth maxDepth : ℕ) (s : ExpandState) :
    Enumeration allTemplates values (maxDepth - depth) path template s
      (enumerateDescendants template allTemplates values path depth maxDepth s) := by
  have hlists := @lists_descendantsFrom _ allTemplates values maxDepth (maxDepth - depth) path depth
    template s
  obtain ⟨errors, heq, herror, hiff⟩ := hlists.reported
  constructor
  case elements => exact hlists.elements
  case budget =>
    have hle : (enumerateDescendants template allTemplates values path depth maxDepth s).1.length ≤
        s.nodeBudget := by
      rw [enumerateDescendants, hlists.elements, List.length_map]
      exact List.length_take_le _ _
    have hbudget := hlists.budget
    rw [enumerateDescendants] at hle ⊢
    omega
  case reported =>
    refine ⟨errors, heq, herror, hiff.trans ⟨?_, ?_⟩⟩
    · rintro (hlt | hstopped)
      · exact .inl (leftOut_of_lt hlt)
      · exact .inr hstopped
    · rintro (hleft | hstopped)
      · exact hleft.lt_or_atLimit
      · exact .inr hstopped

end Reify.StructuralQuery
