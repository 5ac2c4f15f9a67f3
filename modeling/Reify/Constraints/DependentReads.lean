import Reify.Foundation.PostOrder
import Reify.Ir.Expr

/-!
# Transitive reads of dependent cells

A dependent cell is a derived value that the solver derives again from the auto
parameters at every trial.  For each cell the analysis computes the autos it reads,
through other dependent cells too, and whether a pass in stored order can derive it at
all: a cell on or downstream of a cycle cannot.

## Main definitions

* `CompiledExpr.collectConstraintRefs`: the cells that the nodes of a tree name.
* `DependentCellReads`, `CellReads`: the result of the analysis.
* `dependentCellAutoReads`.

## Main results

* `lookup_foldable`: the autos of a foldable cell contain those it names, and those of
  the cells it names, which are foldable.
* `dependentCellAutoReads_exact`: the autos of a cell are those that a path of reads
  leads to, and it is foldable unless it reads a cycle.
-/

open Relation

namespace Reify

open Foundation

variable {V : Type}

/-- The cell that a node names. -/
def CompiledExpr.valueRefId : CompiledExpr V → Option ValueCellId
  | valueRef id => some id
  | _ => none

/-- `collect_value_refs` and `collect_constraint_refs`: the cells named by the nodes of
the tree. -/
def CompiledExpr.collectConstraintRefs (e : CompiledExpr V) : HashSet ValueCellId :=
  HashSet.ofList (e.walk.filterMap valueRefId)

/-- A dependent cell with the expression that computes it. -/
abbrev DependentCell (V : Type) := ValueCellId × CompiledExpr V

/-- What the analysis stores of a cell. -/
structure CellEntry where
  autos : HashSet ValueCellId
  foldable : Bool

/-- For each dependent cell, the autos it reads and whether it is foldable. -/
structure DependentCellReads where
  cells : HashMap ValueCellId CellEntry

/-- What is known about an id. -/
inductive CellReads where
  | notACell
  | foldable (autos : HashSet ValueCellId)
  | unfoldable (autos : HashSet ValueCellId)

def DependentCellReads.lookup (reads : DependentCellReads) (id : ValueCellId) : CellReads :=
  match reads.cells.get id with
  | none => .notACell
  | some entry => if entry.foldable then .foldable entry.autos else .unfoldable entry.autos

section

variable (dependentCells : List (DependentCell V)) (autoIds : List ValueCellId)

/-- The refs of a cell. -/
def cellRefs (i : Fin dependentCells.length) : HashSet ValueCellId :=
  (dependentCells.get i).2.collectConstraintRefs

/-- The autos a cell names. -/
def directAutos (i : Fin dependentCells.length) : HashSet ValueCellId :=
  (cellRefs dependentCells i).filter fun r => decide (r ∈ autoIds)

/-- Every occurrence of the dependent cells a cell names; an auto is not one. -/
def childCells (i : Fin dependentCells.length) : List (Fin dependentCells.length) :=
  ((cellRefs dependentCells i).filter fun r => decide (r ∉ autoIds)).toList.flatMap fun r =>
    (List.finRange dependentCells.length).filter fun j => decide ((dependentCells.get j).1 = r)

/-- The stored sets of the depth-first search over the cells. -/
def cellMemo : HashMap (Fin dependentCells.length) (HashSet ValueCellId × Bool) :=
  postOrder (directAutos dependentCells autoIds) (childCells dependentCells autoIds)
    (List.finRange dependentCells.length)

/-- The state of the walk that finds what a partial cell reaches: the autos reached and
the cells visited. -/
abbrev ReachState (n : Nat) := HashSet ValueCellId × HashSet (Fin n)

/-- A cell that is not partial contributes its set and is not walked beneath. -/
def reachVisit (node : Fin dependentCells.length) (s : ReachState dependentCells.length) :
    ReachState dependentCells.length × List (Fin dependentCells.length) :=
  match (cellMemo dependentCells autoIds).get node with
  | some (set, false) => ((s.1.extend set.toList, s.2), [])
  | _ =>
    (childCells dependentCells autoIds node).foldl
      (fun acc child =>
        if child ∈ acc.1.2 then acc else ((acc.1.1, acc.1.2.insert child), child :: acc.2))
      ((s.1.extend (directAutos dependentCells autoIds node).toList, s.2), [])

/-- The autos that a partial cell reaches.  Every cell is pushed at most once, so one
round for each cell is enough. -/
def exactReach (start : Fin dependentCells.length) : HashSet ValueCellId :=
  (drainStack (reachVisit dependentCells autoIds) dependentCells.length [start]
    (∅, HashSet.ofList [start])).2.1

/-- The exact autos of a cell, and whether it is partial. -/
def cellAutos (i : Fin dependentCells.length) : HashSet ValueCellId × Bool :=
  match (cellMemo dependentCells autoIds).get i with
  | some (set, false) => (set, false)
  | _ => (exactReach dependentCells autoIds i, true)

/-- The entry of a cell extended by one of its occurrences. -/
def addOccurrence (cells : HashMap ValueCellId CellEntry) (id : ValueCellId)
    (autos : HashSet ValueCellId × Bool) : HashMap ValueCellId CellEntry :=
  let entry := (cells.get id).getD ⟨∅, true⟩
  cells.insert id ⟨entry.autos.extend autos.1.toList, entry.foldable && !autos.2⟩

/-- For each dependent cell, the autos it reads through other cells too, and whether a
pass in stored order can derive it. -/
def dependentCellAutoReads : DependentCellReads :=
  ⟨(List.finRange dependentCells.length).foldl
    (fun cells i =>
      addOccurrence cells (dependentCells.get i).1 (cellAutos dependentCells autoIds i)) ∅⟩

end

/-! ## What the analysis says -/

section

variable {dependentCells : List (DependentCell V)} {autoIds : List ValueCellId}

theorem mem_directAutos {i : Fin dependentCells.length} {r : ValueCellId} :
    r ∈ directAutos dependentCells autoIds i ↔ r ∈ cellRefs dependentCells i ∧ r ∈ autoIds := by
  rw [directAutos, HashSet.mem_filter, decide_eq_true_eq]

theorem mem_childCells {i j : Fin dependentCells.length} :
    j ∈ childCells dependentCells autoIds i ↔
      (dependentCells.get j).1 ∈ cellRefs dependentCells i ∧ (dependentCells.get j).1 ∉ autoIds := by
  simp only [childCells, List.mem_flatMap, HashSet.mem_toList, HashSet.mem_filter,
    decide_eq_true_eq, List.mem_filter, List.mem_finRange, true_and]
  constructor
  · rintro ⟨r, hr, rfl⟩
    exact hr
  · intro h
    exact ⟨_, h, rfl⟩

/-- The entry of an id after the occurrences of a list: foldable when every occurrence
is, with the autos of all of them. -/
theorem get_foldl_addOccurrence {A : Type*} (id : A → ValueCellId)
    (autos : A → HashSet ValueCellId × Bool) (as : List A) (cells : HashMap ValueCellId CellEntry)
    (k : ValueCellId) {entry : CellEntry}
    (h : (as.foldl (fun cells a => addOccurrence cells (id a) (autos a)) cells).get k =
      some entry) :
    (entry.foldable = true ↔ (∀ e, cells.get k = some e → e.foldable = true) ∧
      ∀ a ∈ as, id a = k → (autos a).2 = false) ∧
    ∀ r, r ∈ entry.autos ↔ (∃ e, cells.get k = some e ∧ r ∈ e.autos) ∨
      ∃ a ∈ as, id a = k ∧ r ∈ (autos a).1 := by
  induction as generalizing cells with
  | nil =>
    rw [List.foldl_nil] at h
    simp [h]
  | cons a as ih =>
    rw [List.foldl_cons] at h
    obtain ⟨hfoldable, hautos⟩ := ih _ h
    by_cases hk : k = id a
    · subst hk
      have hget : (addOccurrence cells (id a) (autos a)).get (id a) =
          some ⟨((cells.get (id a)).getD ⟨∅, true⟩).autos.extend (autos a).1.toList,
            ((cells.get (id a)).getD ⟨∅, true⟩).foldable && !(autos a).2⟩ :=
        HashMap.get_insert_self _ _ _
      rw [hget] at hfoldable hautos
      refine ⟨?_, ?_⟩
      · rw [hfoldable]
        cases cells.get (id a) with
        | none => simp
        | some e => simp [and_assoc]
      · intro r
        rw [hautos r]
        cases cells.get (id a) with
        | none => simp
        | some e => simp [or_assoc]
    · have hget : (addOccurrence cells (id a) (autos a)).get k = cells.get k :=
        HashMap.get_insert_of_ne _ _ hk
      rw [hget] at hfoldable hautos
      refine ⟨?_, ?_⟩
      · rw [hfoldable]
        simp [Ne.symm hk]
      · intro r
        rw [hautos r]
        simp [Ne.symm hk]

theorem get_foldl_addOccurrence_isSome {A : Type*} (id : A → ValueCellId)
    (autos : A → HashSet ValueCellId × Bool) (as : List A) (cells : HashMap ValueCellId CellEntry)
    {k : ValueCellId} (h : (cells.get k).isSome = true ∨ ∃ a ∈ as, id a = k) :
    ((as.foldl (fun cells a => addOccurrence cells (id a) (autos a)) cells).get k).isSome =
      true := by
  induction as generalizing cells with
  | nil => exact h.resolve_right (by simp)
  | cons a as ih =>
    rw [List.foldl_cons]
    apply ih
    by_cases hk : k = id a
    · left
      rw [hk, addOccurrence, HashMap.get_insert_self, Option.isSome_some]
    · rw [addOccurrence, HashMap.get_insert_of_ne _ _ hk]
      rcases h with h | ⟨b, hb, hid⟩
      · exact .inl h
      · rcases List.mem_cons.mp hb with rfl | hb
        · exact absurd hid.symm hk
        · exact .inr ⟨b, hb, hid⟩

/-- A cell that is not partial has a stored set that contains the autos it names, and
the sets of the cells it names, which are not partial. -/
theorem cellAutos_settled {i : Fin dependentCells.length}
    (h : (cellAutos dependentCells autoIds i).2 = false) :
    (∀ r ∈ cellRefs dependentCells i, r ∈ autoIds →
      r ∈ (cellAutos dependentCells autoIds i).1) ∧
    ∀ j, (dependentCells.get j).1 ∈ cellRefs dependentCells i →
      (dependentCells.get j).1 ∉ autoIds → (cellAutos dependentCells autoIds j).2 = false ∧
        ∀ r ∈ (cellAutos dependentCells autoIds j).1,
          r ∈ (cellAutos dependentCells autoIds i).1 := by
  obtain ⟨set, isPartial, hget, hsettled⟩ :=
    postOrder_settled (directAutos dependentCells autoIds) (childCells dependentCells autoIds)
      List.mem_finRange i
  cases isPartial with
  | true => rw [cellAutos, cellMemo, hget] at h; cases h
  | false =>
    obtain ⟨hown, hchildren⟩ := hsettled rfl
    have hi : cellAutos dependentCells autoIds i = (set, false) := by
      rw [cellAutos, cellMemo, hget]
    rw [hi]
    refine ⟨?_, ?_⟩
    · intro r hr hauto
      exact hown r (mem_directAutos.mpr ⟨hr, hauto⟩)
    · intro j hj hauto
      obtain ⟨set', hset', hsub⟩ := hchildren j (mem_childCells.mpr ⟨hj, hauto⟩)
      have hj : cellAutos dependentCells autoIds j = (set', false) := by
        rw [cellAutos, cellMemo, hset']
      rw [hj]
      exact ⟨rfl, hsub⟩

/-- The entry of a dependent cell. -/
theorem lookup_spec (autoIds : List ValueCellId) {id : ValueCellId}
    (hid : ∃ i, (dependentCells.get i).1 = id) :
    ∃ autos : HashSet ValueCellId,
      (∀ r, r ∈ autos ↔ ∃ i, (dependentCells.get i).1 = id ∧
        r ∈ (cellAutos dependentCells autoIds i).1) ∧
      ((∀ i, (dependentCells.get i).1 = id → (cellAutos dependentCells autoIds i).2 = false) →
        (dependentCellAutoReads dependentCells autoIds).lookup id = .foldable autos) ∧
      ∀ autos', (dependentCellAutoReads dependentCells autoIds).lookup id = .foldable autos' →
        autos' = autos ∧
          ∀ i, (dependentCells.get i).1 = id → (cellAutos dependentCells autoIds i).2 = false := by
  have hsome := get_foldl_addOccurrence_isSome (fun i => (dependentCells.get i).1)
    (cellAutos dependentCells autoIds) (List.finRange dependentCells.length) ∅
    (.inr (hid.imp fun i hi => ⟨List.mem_finRange i, hi⟩))
  obtain ⟨entry, hentry⟩ := Option.isSome_iff_exists.mp hsome
  obtain ⟨hfoldable, hautos⟩ := get_foldl_addOccurrence _ _ _ _ id hentry
  simp only [HashMap.get_empty, reduceCtorEq, false_implies, implies_true, true_and,
    List.mem_finRange, true_implies, false_and, exists_false, false_or] at hfoldable hautos
  have hlookup : (dependentCellAutoReads dependentCells autoIds).lookup id =
      if entry.foldable then .foldable entry.autos else .unfoldable entry.autos := by
    rw [DependentCellReads.lookup, dependentCellAutoReads, hentry]
  refine ⟨entry.autos, hautos, ?_, ?_⟩
  · intro h
    rw [hlookup, if_pos (hfoldable.mpr h)]
  · intro autos' h
    rw [hlookup] at h
    split at h
    · next hentry =>
      cases h
      exact ⟨rfl, hfoldable.mp hentry⟩
    · cases h

/-- **The autos of a foldable cell** contain those that its occurrences name, and the
autos of the cells they name, which are foldable. -/
theorem lookup_foldable {id : ValueCellId} {autos : HashSet ValueCellId}
    (h : (dependentCellAutoReads dependentCells autoIds).lookup id = .foldable autos)
    {i : Fin dependentCells.length} (hi : (dependentCells.get i).1 = id) :
    (∀ r ∈ cellRefs dependentCells i, r ∈ autoIds → r ∈ autos) ∧
    ∀ r ∈ cellRefs dependentCells i, r ∉ autoIds → (∃ j, (dependentCells.get j).1 = r) →
      ∃ autos', (dependentCellAutoReads dependentCells autoIds).lookup r = .foldable autos' ∧
        ∀ k ∈ autos', k ∈ autos := by
  obtain ⟨autos₀, hautos, -, hspec⟩ := lookup_spec autoIds ⟨i, hi⟩
  obtain ⟨rfl, hcomplete⟩ := hspec autos h
  obtain ⟨hdirect, hchildren⟩ := cellAutos_settled (hcomplete i hi)
  refine ⟨?_, ?_⟩
  · intro r hr hauto
    exact (hautos r).mpr ⟨i, hi, hdirect r hr hauto⟩
  · intro r hr hauto hcell
    obtain ⟨autos', hautos', hfoldable, -⟩ := lookup_spec autoIds hcell
    refine ⟨autos', hfoldable ?_, ?_⟩
    · rintro j rfl
      exact (hchildren j hr hauto).1
    · intro k hk
      obtain ⟨j, rfl, hj⟩ := (hautos' k).mp hk
      exact (hautos k).mpr ⟨i, hi, (hchildren j hr hauto).2 k hj⟩

end

/-! ## The analysis is exact -/

section

variable (dependentCells : List (DependentCell V)) (autoIds : List ValueCellId)

/-- The read graph: an id reads what the expression of one of its occurrences names. -/
def Reads (id r : ValueCellId) : Prop :=
  ∃ i, (dependentCells.get i).1 = id ∧ r ∈ cellRefs dependentCells i

/-- The edges that are followed: an auto is a leaf of the read graph. -/
def ReadsThrough (id r : ValueCellId) : Prop := Reads dependentCells id r ∧ r ∉ autoIds

/-- A path of reads that meets no auto before its end leads to the auto. -/
def ReadsAuto (id a : ValueCellId) : Prop :=
  ∃ c, ReflTransGen (ReadsThrough dependentCells autoIds) id c ∧ Reads dependentCells c a ∧
    a ∈ autoIds

/-- The id is on a cycle of cells, or reads one. -/
def ReadsCycle (id : ValueCellId) : Prop :=
  ∃ c, ReflTransGen (ReadsThrough dependentCells autoIds) id c ∧
    TransGen (ReadsThrough dependentCells autoIds) c c

/-- An occurrence of a cell and the occurrences of the cells it names. -/
def ChildCell (i j : Fin dependentCells.length) : Prop := j ∈ childCells dependentCells autoIds i

variable {dependentCells autoIds}

/-! ### The walk beneath a partial cell -/

/-- What one partial cell does to the walk: its successors are visited, and those not
visited before are pushed, each paid for by itself. -/
theorem foldl_push_spec {n : ℕ} (cs : List (Fin n)) (autos : HashSet ValueCellId)
    (visited : HashSet (Fin n)) (pushed : List (Fin n)) :
    ∃ visited' pushed', cs.foldl (fun (acc : ReachState n × List (Fin n)) child =>
        if child ∈ acc.1.2 then acc else ((acc.1.1, acc.1.2.insert child), child :: acc.2))
        ((autos, visited), pushed) = ((autos, visited'), pushed') ∧
      (∀ m, m ∈ visited' ↔ m ∈ visited ∨ m ∈ cs) ∧
      (∀ m, m ∈ pushed' ↔ m ∈ pushed ∨ m ∈ cs ∧ m ∉ visited) ∧
      pushed'.length + unpaid (List.finRange n) (fun _ => 1) visited' ≤
        pushed.length + unpaid (List.finRange n) (fun _ => 1) visited := by
  induction cs generalizing visited pushed with
  | nil => exact ⟨visited, pushed, rfl, by simp, by simp, le_rfl⟩
  | cons child cs ih =>
    rw [List.foldl_cons]
    by_cases hchild : child ∈ visited
    · obtain ⟨visited', pushed', heq, hvisited, hpushed, hpaid⟩ := ih visited pushed
      refine ⟨visited', pushed', ?_, fun m => ?_, fun m => ?_, hpaid⟩
      · rw [if_pos hchild]
        exact heq
      · rw [hvisited m, List.mem_cons]
        grind
      · rw [hpushed m, List.mem_cons]
        grind
    · obtain ⟨visited', pushed', heq, hvisited, hpushed, hpaid⟩ :=
        ih (visited.insert child) (child :: pushed)
      refine ⟨visited', pushed', ?_, fun m => ?_, fun m => ?_, ?_⟩
      · rw [if_neg hchild]
        exact heq
      · rw [hvisited m, HashSet.mem_insert, List.mem_cons]
        grind
      · rw [hpushed m, HashSet.mem_insert, List.mem_cons, List.mem_cons]
        grind
      · have hcost := cost_add_unpaid_insert_le (fun _ => 1) hchild
          (.inl (List.mem_finRange child))
        rw [List.length_cons] at hpaid
        omega

/-- A round of the walk: a cell that is not partial adds its set, another one its own
autos and its successors. -/
theorem reachVisit_spec (dependentCells : List (DependentCell V)) (autoIds : List ValueCellId)
    (node : Fin dependentCells.length) (s : ReachState dependentCells.length) :
    (∃ set, (cellMemo dependentCells autoIds).get node = some (set, false) ∧
      reachVisit dependentCells autoIds node s = ((s.1.extend set.toList, s.2), [])) ∨
    ((∀ set, (cellMemo dependentCells autoIds).get node ≠ some (set, false)) ∧
      ∃ visited' pushed', reachVisit dependentCells autoIds node s =
          ((s.1.extend (directAutos dependentCells autoIds node).toList, visited'), pushed') ∧
        (∀ m, m ∈ visited' ↔ m ∈ s.2 ∨ ChildCell dependentCells autoIds node m) ∧
        (∀ m, m ∈ pushed' ↔ ChildCell dependentCells autoIds node m ∧ m ∉ s.2) ∧
        pushed'.length + unpaid (List.finRange dependentCells.length) (fun _ => 1) visited' ≤
          unpaid (List.finRange dependentCells.length) (fun _ => 1) s.2) := by
  rw [reachVisit]
  split
  · next set hget => exact .inl ⟨set, hget, rfl⟩
  · next hget =>
    obtain ⟨visited', pushed', heq, hvisited, hpushed, hpaid⟩ :=
      foldl_push_spec (childCells dependentCells autoIds node)
        (s.1.extend (directAutos dependentCells autoIds node).toList) s.2 []
    refine .inr ⟨fun set hset => hget set hset, visited', pushed', heq, hvisited, fun m => ?_, ?_⟩
    · rw [hpushed m, or_iff_right List.not_mem_nil]
      rfl
    · rwa [List.length_nil, Nat.zero_add] at hpaid

/-- **The walk ends**: every cell is pushed at most once. -/
theorem exactReach_drained (start : Fin dependentCells.length) :
    (drainStack (reachVisit dependentCells autoIds) dependentCells.length [start]
      (∅, HashSet.ofList [start])).1 = [] := by
  have hpays : Pays (reachVisit dependentCells autoIds) fun s =>
      unpaid (List.finRange dependentCells.length) (fun _ => 1) s.2 := by
    intro node s
    obtain ⟨set, -, heq⟩ | ⟨-, visited', pushed', heq, -, -, hpaid⟩ :=
      reachVisit_spec dependentCells autoIds node s
    · rw [heq, List.length_nil, Nat.zero_add]
    · rw [heq]
      exact hpaid
  have hcost := cost_add_unpaid_insert_le (fun _ => 1) (HashSet.not_mem_empty start)
    (.inl (List.mem_finRange start))
  have hall : unpaid (List.finRange dependentCells.length) (fun _ => 1) ∅ =
      dependentCells.length := by
    simp [unpaid]
  rw [hall] at hcost
  exact drainStack_fst_eq_nil hpays hcost

/-- The state of the walk: what it holds is reached, and a visited cell is on the stack
or has been dealt with. -/
structure ReachInv (dependentCells : List (DependentCell V)) (autoIds : List ValueCellId)
    (start : Fin dependentCells.length) (stack : List (Fin dependentCells.length))
    (s : ReachState dependentCells.length) : Prop where
  rooted : start ∈ s.2
  reached : ∀ m ∈ s.2, ReflTransGen (ChildCell dependentCells autoIds) start m
  stacked : ∀ m ∈ stack, m ∈ s.2
  sound : ∀ a ∈ s.1, ∃ m, ReflTransGen (ChildCell dependentCells autoIds) start m ∧
    a ∈ directAutos dependentCells autoIds m
  done : ∀ m ∈ s.2, m ∈ stack ∨
    (∃ set, (cellMemo dependentCells autoIds).get m = some (set, false) ∧ ∀ a ∈ set, a ∈ s.1) ∨
    (∀ a ∈ directAutos dependentCells autoIds m, a ∈ s.1) ∧
      ∀ j, ChildCell dependentCells autoIds m j → j ∈ s.2

theorem ReachInv.visit {start node : Fin dependentCells.length}
    {stack : List (Fin dependentCells.length)} {s : ReachState dependentCells.length}
    (h : ReachInv dependentCells autoIds start (node :: stack) s) :
    ReachInv dependentCells autoIds start
      ((reachVisit dependentCells autoIds node s).2 ++ stack)
      (reachVisit dependentCells autoIds node s).1 := by
  have hnode := h.reached node (h.stacked node List.mem_cons_self)
  obtain ⟨set, hget, heq⟩ | ⟨-, visited', pushed', heq, hvisited, hpushed, -⟩ :=
    reachVisit_spec dependentCells autoIds node s
  · rw [heq]
    have hexact := postOrder_exact (directAutos dependentCells autoIds)
      (childCells dependentCells autoIds) List.mem_finRange hget
    constructor
    case rooted => exact h.rooted
    case reached => exact h.reached
    case stacked => exact fun m hm => h.stacked m (List.mem_cons_of_mem node hm)
    case sound =>
      intro a ha
      rcases HashSet.mem_extend.mp ha with ha | ha
      · exact h.sound a ha
      · obtain ⟨m, hm, ha⟩ := (hexact.2 a).mp ha
        exact ⟨m, hnode.trans hm, ha⟩
    case done =>
      intro m hm
      by_cases hmn : m = node
      · subst hmn
        exact .inr (.inl ⟨set, hget, fun a ha => HashSet.mem_extend.mpr (.inr ha)⟩)
      · rcases h.done m hm with hmem | ⟨set', hset', hsub⟩ | ⟨hown, hchildren⟩
        · exact .inl ((List.mem_cons.mp hmem).resolve_left hmn)
        · exact .inr (.inl ⟨set', hset', fun a ha => HashSet.mem_extend.mpr (.inl (hsub a ha))⟩)
        · exact .inr (.inr ⟨fun a ha => HashSet.mem_extend.mpr (.inl (hown a ha)), hchildren⟩)
  · rw [heq]
    constructor
    case rooted => exact (hvisited start).mpr (.inl h.rooted)
    case reached =>
      intro m hm
      rcases (hvisited m).mp hm with hm | hm
      · exact h.reached m hm
      · exact hnode.tail hm
    case stacked =>
      intro m hm
      rcases List.mem_append.mp hm with hm | hm
      · exact (hvisited m).mpr (.inr ((hpushed m).mp hm).1)
      · exact (hvisited m).mpr (.inl (h.stacked m (List.mem_cons_of_mem node hm)))
    case sound =>
      intro a ha
      rcases HashSet.mem_extend.mp ha with ha | ha
      · exact h.sound a ha
      · exact ⟨node, hnode, ha⟩
    case done =>
      intro m hm
      by_cases hold : m ∈ s.2
      · by_cases hmn : m = node
        · subst hmn
          exact .inr (.inr ⟨fun a ha => HashSet.mem_extend.mpr (.inr ha),
            fun j hj => (hvisited j).mpr (.inr hj)⟩)
        · rcases h.done m hold with hmem | ⟨set', hset', hsub⟩ | ⟨hown, hchildren⟩
          · exact .inl (List.mem_append_right _ ((List.mem_cons.mp hmem).resolve_left hmn))
          · exact .inr (.inl ⟨set', hset', fun a ha => HashSet.mem_extend.mpr (.inl (hsub a ha))⟩)
          · exact .inr (.inr ⟨fun a ha => HashSet.mem_extend.mpr (.inl (hown a ha)),
              fun j hj => (hvisited j).mpr (.inl (hchildren j hj))⟩)
      · have hchild := ((hvisited m).mp hm).resolve_left hold
        exact .inl (List.mem_append_left _ ((hpushed m).mpr ⟨hchild, hold⟩))

/-- **The walk finds the autos that the occurrence reaches**, and no other. -/
theorem mem_exactReach {start : Fin dependentCells.length} {a : ValueCellId} :
    a ∈ exactReach dependentCells autoIds start ↔
      ∃ m, ReflTransGen (ChildCell dependentCells autoIds) start m ∧
        a ∈ directAutos dependentCells autoIds m := by
  have hinit : ReachInv dependentCells autoIds start [start] (∅, HashSet.ofList [start]) := by
    have hstart {m : Fin dependentCells.length} (hm : m ∈ HashSet.ofList [start]) : m = start :=
      List.mem_singleton.mp (HashSet.mem_ofList.mp hm)
    refine ⟨HashSet.mem_ofList.mpr (List.mem_singleton_self start), ?_, ?_, ?_, ?_⟩
    · intro m hm
      rw [hstart hm]
    · intro m hm
      exact HashSet.mem_ofList.mpr hm
    · intro a ha
      exact absurd ha (HashSet.not_mem_empty a)
    · intro m hm
      exact .inl (List.mem_singleton.mpr (hstart hm))
  have hend := drainStack_invariant (P := ReachInv dependentCells autoIds start)
    (fun n stack s h => h.visit) dependentCells.length hinit
  rw [exactReach_drained] at hend
  rw [exactReach]
  refine ⟨hend.sound a, ?_⟩
  rintro ⟨m, hm, ha⟩
  -- Along the path a cell is visited, until a cell that is not partial covers the rest.
  have hpath : m ∈ (drainStack (reachVisit dependentCells autoIds) dependentCells.length [start]
        (∅, HashSet.ofList [start])).2.2 ∨
      ∀ j, ReflTransGen (ChildCell dependentCells autoIds) m j →
        ∀ a ∈ directAutos dependentCells autoIds j,
          a ∈ (drainStack (reachVisit dependentCells autoIds) dependentCells.length [start]
            (∅, HashSet.ofList [start])).2.1 := by
    clear ha
    induction hm with
    | refl => exact .inl hend.rooted
    | tail _ hstep ih =>
      rcases ih with hvisited | hcovered
      · rcases (hend.done _ hvisited).resolve_left List.not_mem_nil with
          ⟨set, hset, hsub⟩ | ⟨-, hchildren⟩
        · right
          intro j hj a ha
          have hexact := postOrder_exact (directAutos dependentCells autoIds)
            (childCells dependentCells autoIds) List.mem_finRange hset
          exact hsub a ((hexact.2 a).mpr ⟨j, .head hstep hj, ha⟩)
        · exact .inl (hchildren _ hstep)
      · exact .inr fun j hj => hcovered j (.head hstep hj)
  rcases hpath with hvisited | hcovered
  · rcases (hend.done m hvisited).resolve_left List.not_mem_nil with
      ⟨set, hset, hsub⟩ | ⟨hown, -⟩
    · have hexact := postOrder_exact (directAutos dependentCells autoIds)
        (childCells dependentCells autoIds) List.mem_finRange hset
      exact hsub a ((hexact.2 a).mpr ⟨m, .refl, ha⟩)
    · exact hown a ha
  · exact hcovered m .refl a ha

/-- The memo of every cell, which is exact. -/
theorem get_cellMemo (dependentCells : List (DependentCell V)) (autoIds : List ValueCellId)
    (i : Fin dependentCells.length) : ∃ entry,
      (cellMemo dependentCells autoIds).get i = some entry ∧
        PostOrder.Exact (directAutos dependentCells autoIds) (childCells dependentCells autoIds)
          i entry := by
  obtain ⟨set, isPartial, hget, -⟩ := postOrder_settled (directAutos dependentCells autoIds)
    (childCells dependentCells autoIds) List.mem_finRange i
  exact ⟨_, hget, postOrder_exact _ _ List.mem_finRange hget⟩

/-- The autos of an occurrence are those it reaches. -/
theorem mem_cellAutos {i : Fin dependentCells.length} {a : ValueCellId} :
    a ∈ (cellAutos dependentCells autoIds i).1 ↔
      ∃ m, ReflTransGen (ChildCell dependentCells autoIds) i m ∧
        a ∈ directAutos dependentCells autoIds m := by
  obtain ⟨⟨set, isPartial⟩, hget, hexact⟩ := get_cellMemo dependentCells autoIds i
  rw [cellAutos, hget]
  cases isPartial with
  | true => exact mem_exactReach
  | false => exact hexact.2 a

/-- An occurrence is partial when it reaches a cycle. -/
theorem cellAutos_isPartial {i : Fin dependentCells.length} :
    (cellAutos dependentCells autoIds i).2 = true ↔
      ∃ c, ReflTransGen (ChildCell dependentCells autoIds) i c ∧
        TransGen (ChildCell dependentCells autoIds) c c := by
  obtain ⟨⟨set, isPartial⟩, hget, hexact⟩ := get_cellMemo dependentCells autoIds i
  rw [cellAutos, hget]
  cases isPartial with
  | true => exact iff_of_true rfl hexact
  | false => exact iff_of_false Bool.false_ne_true hexact.not_cycle

/-! ### From occurrences to ids -/

theorem ChildCell.readsThrough {i j : Fin dependentCells.length}
    (h : ChildCell dependentCells autoIds i j) :
    ReadsThrough dependentCells autoIds (dependentCells.get i).1 (dependentCells.get j).1 := by
  obtain ⟨hread, hauto⟩ := mem_childCells.mp h
  exact ⟨⟨i, rfl, hread⟩, hauto⟩

/-- An edge between ids is an edge from one occurrence to every occurrence. -/
theorem ReadsThrough.childCell {id : ValueCellId} {j : Fin dependentCells.length}
    (h : ReadsThrough dependentCells autoIds id (dependentCells.get j).1) :
    ∃ i, (dependentCells.get i).1 = id ∧ ∀ k, (dependentCells.get k).1 = (dependentCells.get j).1 →
      ChildCell dependentCells autoIds i k := by
  obtain ⟨⟨i, hi, hread⟩, hauto⟩ := h
  refine ⟨i, hi, fun k hk => mem_childCells.mpr ?_⟩
  rw [hk]
  exact ⟨hread, hauto⟩

/-- A path between ids that ends at an occurrence starts at an occurrence. -/
theorem exists_path_of_reflTransGen {id c : ValueCellId}
    (h : ReflTransGen (ReadsThrough dependentCells autoIds) id c) {j : Fin dependentCells.length}
    (hj : (dependentCells.get j).1 = c) :
    ∃ i, (dependentCells.get i).1 = id ∧
      ReflTransGen (ChildCell dependentCells autoIds) i j := by
  induction h using ReflTransGen.head_induction_on with
  | refl => exact ⟨j, hj, .refl⟩
  | head hstep _ ih =>
    obtain ⟨k, rfl, hk⟩ := ih
    obtain ⟨i, hi, hchild⟩ := hstep.childCell
    exact ⟨i, hi, .head (hchild k rfl) hk⟩

theorem readsAuto_iff {id a : ValueCellId} :
    ReadsAuto dependentCells autoIds id a ↔
      ∃ i, (dependentCells.get i).1 = id ∧ a ∈ (cellAutos dependentCells autoIds i).1 := by
  constructor
  · rintro ⟨c, hc, ⟨j, hj, hread⟩, hauto⟩
    obtain ⟨i, hi, hpath⟩ := exists_path_of_reflTransGen hc hj
    exact ⟨i, hi, mem_cellAutos.mpr ⟨j, hpath, mem_directAutos.mpr ⟨hread, hauto⟩⟩⟩
  · rintro ⟨i, rfl, ha⟩
    obtain ⟨j, hpath, ha⟩ := mem_cellAutos.mp ha
    obtain ⟨hread, hauto⟩ := mem_directAutos.mp ha
    refine ⟨_, ?_, ⟨j, rfl, hread⟩, hauto⟩
    exact hpath.lift (fun k => (dependentCells.get k).1) fun _ _ hstep => hstep.readsThrough

theorem readsCycle_iff {id : ValueCellId} :
    ReadsCycle dependentCells autoIds id ↔
      ∃ i, (dependentCells.get i).1 = id ∧ (cellAutos dependentCells autoIds i).2 = true := by
  constructor
  · rintro ⟨c, hc, hcycle⟩
    obtain ⟨r, hread, hback⟩ := TransGen.head'_iff.mp hcycle
    -- The first edge of the cycle leaves an occurrence, and reaches every one of the next id.
    obtain ⟨⟨k, rfl, hname⟩, hauto⟩ := hread
    obtain ⟨j, rfl, hpath⟩ := exists_path_of_reflTransGen hback rfl
    obtain ⟨i, hi, hreach⟩ := exists_path_of_reflTransGen hc rfl
    refine ⟨i, hi, cellAutos_isPartial.mpr ⟨k, hreach, ?_⟩⟩
    exact .head' (mem_childCells.mpr ⟨hname, hauto⟩) hpath
  · rintro ⟨i, rfl, hcycle⟩
    obtain ⟨c, hc, hcycle⟩ := cellAutos_isPartial.mp hcycle
    exact ⟨_, hc.lift (fun k => (dependentCells.get k).1) fun _ _ hstep => hstep.readsThrough,
      hcycle.lift (fun k => (dependentCells.get k).1) fun _ _ hstep => hstep.readsThrough⟩

/-- Where no auto is listed as a cell, the edges that are followed are those that lead to
an id that reads something, so nothing is cut off. -/
theorem readsAuto_iff_transGen (hcells : ∀ i, (dependentCells.get i).1 ∉ autoIds)
    {id a : ValueCellId} :
    ReadsAuto dependentCells autoIds id a ↔ TransGen (Reads dependentCells) id a ∧ a ∈ autoIds := by
  constructor
  · rintro ⟨c, hc, hread, hauto⟩
    exact ⟨.tail' (hc.lift _ fun _ _ hstep => hstep.1) hread, hauto⟩
  · rintro ⟨hpath, hauto⟩
    obtain ⟨c, hc, hread⟩ := TransGen.tail'_iff.mp hpath
    refine ⟨c, ?_, hread, hauto⟩
    have hfollowed (r : ValueCellId) (hr : Reads dependentCells c r) :
        ReflTransGen (ReadsThrough dependentCells autoIds) id c := by
      clear hpath hread
      induction hc generalizing r with
      | refl => exact .refl
      | tail _ hstep ih =>
        obtain ⟨i, rfl, -⟩ := hr
        exact .tail (ih _ hstep) ⟨hstep, hcells i⟩
    exact hfollowed a hread

/-- An id that no occurrence carries has no entry. -/
theorem get_foldl_addOccurrence_of_ne {A : Type*} (id : A → ValueCellId)
    (autos : A → HashSet ValueCellId × Bool) (as : List A) (cells : HashMap ValueCellId CellEntry)
    {k : ValueCellId} (h : ∀ a ∈ as, id a ≠ k) :
    (as.foldl (fun cells a => addOccurrence cells (id a) (autos a)) cells).get k = cells.get k := by
  induction as generalizing cells with
  | nil => rfl
  | cons a as ih =>
    rw [List.foldl_cons, ih _ fun b hb => h b (List.mem_cons_of_mem a hb), addOccurrence,
      HashMap.get_insert_of_ne _ _ (h a List.mem_cons_self).symm]

/-- **The analysis is exact.**  Its loops end with an empty stack.  The ids that are
listed, and no others, have an entry.  Its autos are those that a path of reads leads to,
through any occurrences and stopping at the first auto, and it is foldable unless the id
reads a cycle of cells. -/
theorem dependentCellAutoReads_exact (dependentCells : List (DependentCell V))
    (autoIds : List ValueCellId) :
    (∀ s start, (drainStack (PostOrder.visit (directAutos dependentCells autoIds)
        (childCells dependentCells autoIds)) (1 + unpaid (List.finRange dependentCells.length)
          (PostOrder.cost (childCells dependentCells autoIds)) s.visited) [start] s).1 = []) ∧
    (∀ start, (drainStack (reachVisit dependentCells autoIds) dependentCells.length [start]
        (∅, HashSet.ofList [start])).1 = []) ∧
    ∀ id, ((∀ i, (dependentCells.get i).1 ≠ id) →
        (dependentCellAutoReads dependentCells autoIds).cells.get id = none) ∧
      ((∃ i, (dependentCells.get i).1 = id) → ∃ entry,
        (dependentCellAutoReads dependentCells autoIds).cells.get id = some entry ∧
        (∀ a, a ∈ entry.autos ↔ ReadsAuto dependentCells autoIds id a) ∧
        (entry.foldable = true ↔ ¬ ReadsCycle dependentCells autoIds id)) := by
  refine ⟨?_, exactReach_drained, fun id => ⟨?_, ?_⟩⟩
  · intro s start
    exact drainStack_fst_eq_nil (PostOrder.visit_pays List.mem_finRange) le_rfl
  · intro hid
    rw [dependentCellAutoReads, get_foldl_addOccurrence_of_ne _ _ _ _ fun i _ => hid i,
      HashMap.get_empty]
  · intro hid
    have hsome := get_foldl_addOccurrence_isSome (fun i => (dependentCells.get i).1)
      (cellAutos dependentCells autoIds) (List.finRange dependentCells.length) ∅
      (.inr (hid.imp fun i hi => ⟨List.mem_finRange i, hi⟩))
    obtain ⟨entry, hentry⟩ := Option.isSome_iff_exists.mp hsome
    obtain ⟨hfoldable, hautos⟩ := get_foldl_addOccurrence _ _ _ _ id hentry
    simp only [HashMap.get_empty, reduceCtorEq, false_implies, implies_true, true_and,
      List.mem_finRange, true_implies, false_and, exists_false, false_or] at hfoldable hautos
    refine ⟨entry, hentry, fun a => ?_, ?_⟩
    · rw [hautos a, readsAuto_iff]
    · rw [hfoldable, readsCycle_iff]
      simp only [not_exists, not_and, Bool.not_eq_true]

/-- An auto `a` that is listed as a cell too and reads the auto `b`, and a cell `c` that
reads `a`. -/
def listedAuto : List (DependentCell Unit) :=
  [(⟨"T", "a"⟩, .valueRef ⟨"T", "b"⟩), (⟨"T", "c"⟩, .valueRef ⟨"T", "a"⟩)]

/-- What a listed auto reads does not reach the cells that read the auto. -/
theorem dependentCellAutoReads_listedAuto :
    TransGen (Reads listedAuto) ⟨"T", "c"⟩ ⟨"T", "b"⟩ ∧
      ∃ entry, (dependentCellAutoReads listedAuto [⟨"T", "a"⟩, ⟨"T", "b"⟩]).cells.get ⟨"T", "c"⟩ =
        some entry ∧ ⟨"T", "b"⟩ ∉ entry.autos := by
  refine ⟨.head ⟨⟨1, by decide⟩, rfl, ?_⟩ (.single ⟨⟨0, by decide⟩, rfl, ?_⟩), _, rfl, ?_⟩
  · decide +kernel
  · decide +kernel
  · decide +kernel

end

end Reify
