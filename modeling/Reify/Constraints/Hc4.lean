import Mathlib.Algebra.Order.Ring.Star
import Mathlib.Data.Rat.Star
import Reify.Constraints.ExtendedRat
import Reify.Constraints.Interval

/-!
# Box contraction

A relation is a comparison of two nodes of a flattened expression tree over a box
of variable intervals.  Revising it encloses every node over the box, narrows the
two sides by the comparison, and projects the narrowed sides onto every operand,
down to the box; contracting sweeps over a list of relations until the box stops
shrinking.

The branch that a conditional does not take is enclosed and projected like any
other node, so a point where that branch does not evaluate can be removed although
the relation holds there.

## Main definitions

* `Node`, `Relation`, `Slack`: the compiled comparisons.
* `Relation.revise`, `contract`: the contraction.
* `Evaluation`, `Relation.Satisfied`: a relation that holds at a point.

## Main results

* `Relation.revise_keeps`: revising keeps the points where every node evaluates.
* `contract_keeps`: contraction keeps them, and only ever narrows the box.
-/

namespace Reify

open Foundation

/-! ## Compiled relations -/

/-- How far a comparison is relaxed before it narrows the box. -/
inductive Slack (E : Type) where
  | exact
  | acceptance (inequality : E)

inductive Comparison where
  | atLeast
  | atMost
  | equal
deriving DecidableEq, Repr

/-- One node of a flattened expression tree; operands are indices of earlier nodes. -/
inductive Node (E : Type) [Endpoint E] where
  | const (c : Interval E)
  | var (i : Nat)
  | opaqueLeaf
  | add (a b : Nat)
  | sub (a b : Nat)
  | mul (a b : Nat)
  | div (a b : Nat)
  | neg (a : Nat)
  | powi (a n : Nat)
  | sqrt (a : Nat)
  | abs (a : Nat)
  | min (a b : Nat)
  | max (a b : Nat)
  /-- The branches of a conditional. -/
  | hull (a b : Nat)

section
variable {E : Type} [Endpoint E]

/-- The nodes that a node reads. -/
def Node.operands : Node E → List Nat
  | const _ | var _ | opaqueLeaf => []
  | neg a | powi a _ | sqrt a | abs a => [a]
  | add a b | sub a b | mul a b | div a b | min a b | max a b | hull a b => [a, b]

end

/-- One compiled comparison: operands come before the node that reads them, and
both sides are nodes. -/
structure Relation (E : Type) [Endpoint E] where
  nodes : List (Node E)
  lhs : Nat
  rhs : Nat
  comparison : Comparison
  dimension : DimensionVector
  operands_lt : ∀ i : Fin nodes.length, ∀ j ∈ (nodes.get i).operands, j < i
  sides_lt : lhs < nodes.length ∧ rhs < nodes.length

inductive Revision where
  | consistent
  /-- No point of the box satisfies the relation. -/
  | empty
deriving DecidableEq, Repr

inductive Contraction where
  | consistent
  /-- No point of the input box satisfies every relation. -/
  | empty (relation : Nat)
deriving DecidableEq, Repr

section
variable {E : Type} [Endpoint E]

open Reify.Interval

/-- The interval at an index; an index outside the box bounds nothing. -/
def slot (values : List (Interval E)) (i : Nat) : Interval E := values.getD i entire

theorem slot_set (values : List (Interval E)) (a i : ℕ) (c : Interval E) :
    slot (values.set a c) i = if a = i ∧ a < values.length then c else slot values i := by
  rw [slot, slot, List.getD_eq_getElem?_getD, List.getD_eq_getElem?_getD, List.getElem?_set]
  by_cases hi : a = i
  · subst hi
    by_cases ha : a < values.length
    · simp [ha]
    · simp [ha]
  · simp [hi]

/-! ## Forward -/

/-- The enclosure of a node over the enclosures of the earlier ones. -/
def Node.enclose (bx values : List (Interval E)) : Node E → Option (Interval E)
  | const c => some c
  | var i => some (slot bx i)
  | opaqueLeaf => some entire
  | add a b => some ((slot values a).add (slot values b))
  | sub a b => some ((slot values a).sub (slot values b))
  | mul a b => some ((slot values a).mul (slot values b))
  | div a b => some ((slot values a).div (slot values b))
  | neg a => some (slot values a).neg
  | powi a n => some ((slot values a).powi n)
  | sqrt a => (slot values a).sqrt
  | abs a => some (slot values a).abs
  | min a b => some ((slot values a).min (slot values b))
  | max a b => some ((slot values a).max (slot values b))
  | hull a b => some ((slot values a).hull (slot values b))

/-- The enclosures of the nodes, after those of `values`. -/
def encloseAll (bx : List (Interval E)) :
    List (Node E) → List (Interval E) → Option (List (Interval E))
  | [], values => some values
  | node :: nodes, values => do
    let value ← node.enclose bx values
    encloseAll bx nodes (values ++ [value])

namespace Relation

/-- Enclose every node over the box. -/
def forward (r : Relation E) (bx : List (Interval E)) : Option (List (Interval E)) :=
  encloseAll bx r.nodes []

/-! ## Comparison -/

/-- Every value the slack lets the other side of the comparison take. -/
def relaxed (r : Relation E) (side : Interval E) : Slack E → Interval E
  | .exact => side
  | .acceptance inequality =>
    match r.comparison with
    | .equal =>
      (Interval.new (Endpoint.equalityBand side.lo side.hi r.dimension).1
        (Endpoint.equalityBand side.lo side.hi r.dimension).2).getD entire
    | _ => side.add ((Interval.new (Endpoint.neg inequality) inequality).getD entire)

end Relation

def atLeast (lo : E) : Interval E := (Interval.new lo Endpoint.inf).getD entire

def atMost (hi : E) : Interval E := (Interval.new Endpoint.negInf hi).getD entire

/-- What a comparison leaves of its left side, given the relaxed right side. -/
def Comparison.narrowLhs (side other : Interval E) : Comparison → Option (Interval E)
  | atLeast => side.intersect (Reify.atLeast other.lo)
  | atMost => side.intersect (Reify.atMost other.hi)
  | equal => side.intersect other

/-- What a comparison leaves of its right side, given the relaxed left side. -/
def Comparison.narrowRhs (side other : Interval E) : Comparison → Option (Interval E)
  | atLeast => side.intersect (Reify.atMost other.hi)
  | atMost => side.intersect (Reify.atLeast other.lo)
  | equal => side.intersect other

/-- Narrow both sides by the relaxed comparison, left first. -/
def Relation.compare (r : Relation E) (values : List (Interval E)) (slack : Slack E) :
    Option (List (Interval E)) := do
  let lhs ← r.comparison.narrowLhs (slot values r.lhs) (r.relaxed (slot values r.rhs) slack)
  let rhs ← r.comparison.narrowRhs (slot values r.rhs) (r.relaxed lhs slack)
  pure ((values.set r.lhs lhs).set r.rhs rhs)

/-! ## Backward -/

/-- Narrow two operands in turn: the second sees the first as narrowed. -/
def narrowBoth (values : List (Interval E)) (a b : Nat)
    (first second : Interval E → Interval E → Option (Interval E)) :
    Option (List (Interval E)) := do
  let narrowed ← first (slot values a) (slot values b)
  let values := values.set a narrowed
  let narrowed ← second (slot values b) (slot values a)
  pure (values.set b narrowed)

/-- The operands of a node narrowed to those that produce a value in `z`. -/
def Node.project (z : Interval E) (values : List (Interval E)) :
    Node E → Option (List (Interval E))
  | const _ | var _ | opaqueLeaf | hull _ _ => some values
  | add a b => narrowBoth values a b (fun x y => x.intersect (z.sub y))
      fun y x => y.intersect (z.sub x)
  | sub a b => narrowBoth values a b (fun x y => x.intersect (z.add y))
      fun y x => y.intersect (x.sub z)
  | mul a b => narrowBoth values a b (mulPreimage z) (mulPreimage z)
  | div a b => narrowBoth values a b (divNumeratorPreimage z) (divDenominatorPreimage z)
  | neg a => ((slot values a).intersect z.neg).map (values.set a)
  | powi a n => (powiPreimage z (slot values a) n).map (values.set a)
  | sqrt a => (sqrtPreimage z (slot values a)).map (values.set a)
  | abs a => (absPreimage z (slot values a)).map (values.set a)
  | min a b => narrowBoth values a b (minPreimage z) (minPreimage z)
  | max a b => narrowBoth values a b (maxPreimage z) (maxPreimage z)

/-- The box after a node: only a variable narrows it. -/
def Node.narrowBox (z : Interval E) (bx : List (Interval E)) : Node E → Option (List (Interval E))
  | var i =>
    match bx[i]? with
    | some x => (x.intersect z).map (bx.set i)
    | none => some bx
  | _ => some bx

/-- Project each of the first nodes onto its operands, last to first.  A failing
node leaves the box as the nodes after it have narrowed it. -/
def projectAll (nodes : List (Node E)) :
    Nat → List (Interval E) → List (Interval E) → Revision × List (Interval E)
  | 0, _, bx => (.consistent, bx)
  | index + 1, values, bx =>
    let node := nodes.getD index .opaqueLeaf
    match node.project (slot values index) values, node.narrowBox (slot values index) bx with
    | some values, some bx => projectAll nodes index values bx
    | _, _ => (.empty, bx)

namespace Relation

/-- Project each node's narrowed value onto its operands, root to leaves. -/
def backward (r : Relation E) (values bx : List (Interval E)) : Revision × List (Interval E) :=
  projectAll r.nodes r.nodes.length values bx

/-- Narrow the box to the points where the relation can hold, relaxed by the slack. -/
def revise (r : Relation E) (bx : List (Interval E)) (slack : Slack E) :
    Revision × List (Interval E) :=
  match (r.forward bx).bind fun values => r.compare values slack with
  | some values => r.backward values bx
  | none => (.empty, bx)

end Relation

/-! ## Contraction -/

/-- Whether an endpoint moved by more than the fraction of its scale; an infinite
endpoint becoming finite always counts. -/
def endpointMoved (old new scale : E) : Bool :=
  if Endpoint.isInfinite old then Endpoint.isFinite new
  else Endpoint.lt (Endpoint.mul Endpoint.minRelativeShrink scale)
    (Endpoint.abs (Endpoint.sub new old))

/-- The scale of an endpoint's moves: the width, or the magnitude when it is infinite. -/
def shrinkScale (old : Interval E) (endpoint : E) : E :=
  if Endpoint.isFinite (Endpoint.sub old.hi old.lo) then Endpoint.sub old.hi old.lo
  else Endpoint.abs endpoint

def shrankMaterially (before after : List (Interval E)) : Bool :=
  (before.zip after).any fun p =>
    endpointMoved p.1.lo p.2.lo (shrinkScale p.1 p.1.lo) ||
      endpointMoved p.1.hi p.2.hi (shrinkScale p.1 p.1.hi)

/-- One sweep over the relations in order, from the given index. -/
def sweep (slack : Slack E) :
    Nat → List (Relation E) → List (Interval E) → Contraction × List (Interval E)
  | _, [], bx => (.consistent, bx)
  | index, r :: relations, bx =>
    match r.revise bx slack with
    | (.empty, bx) => (.empty index, bx)
    | (.consistent, bx) => sweep slack (index + 1) relations bx

/-- At most so many sweeps, until one does not shrink the box. -/
def sweeps (relations : List (Relation E)) (slack : Slack E) :
    Nat → List (Interval E) → Contraction × List (Interval E)
  | 0, bx => (.consistent, bx)
  | budget + 1, bx =>
    match sweep slack 0 relations bx with
    | (.empty index, bx) => (.empty index, bx)
    | (.consistent, after) =>
      if shrankMaterially bx after then sweeps relations slack budget after
      else (.consistent, after)

/-- `HC4_MAX_SWEEPS`. -/
def hc4MaxSweeps : Nat := 64

/-- Contract the box against every relation. -/
def contract (relations : List (Relation E)) (bx : List (Interval E)) (slack : Slack E) :
    Contraction × List (Interval E) :=
  sweeps relations slack hc4MaxSweeps bx

end

/-! ## Relations that hold at a point -/

/-- The value of every node, and the branch each conditional takes. -/
structure Evaluation where
  value : ℕ → ℝ
  takesThen : ℕ → Bool

section
variable {E : Type} [Endpoint E] [LawfulEndpoint E]

open LawfulEndpoint Reify.Interval

/-- The comparison as written, strict comparisons as their closures. -/
def Comparison.Meets (x y : ℝ) : Comparison → Prop
  | atLeast => y ≤ x
  | atMost => x ≤ y
  | equal => x = y

/-- The relation between a node's value and those of its operands, at a point `p`. -/
def Node.Holds (p value : ℕ → ℝ) (takesThen : Bool) (x : ℝ) : Node E → Prop
  | const c => x ∈ c
  | var i => x = p i
  | opaqueLeaf => True
  | add a b => x = value a + value b
  | sub a b => x = value a - value b
  | mul a b => x = value a * value b
  | div a b => x * value b = value a
  | neg a => x = -value a
  | powi a n => x = value a ^ n
  | sqrt a => 0 ≤ value a ∧ x = Real.sqrt (value a)
  | abs a => x = |value a|
  | min a b => x = Min.min (value a) (value b)
  | max a b => x = Max.max (value a) (value b)
  | hull a b => x = value (if takesThen then a else b)

/-- The node has a value: it holds, and its divisor is not zero. -/
def Node.Evaluates (p value : ℕ → ℝ) (takesThen : Bool) (x : ℝ) (node : Node E) : Prop :=
  node.Holds p value takesThen x ∧ ∀ a b, node = .div a b → value b ≠ 0

/-- The operands that are evaluated: of a conditional, only the branch taken. -/
def Node.evaluatedOperands (takesThen : Bool) : Node E → List Nat
  | hull a b => [if takesThen then a else b]
  | node => node.operands

namespace Relation

/-- The nodes that an evaluation of the two sides visits. -/
inductive Visits (r : Relation E) (e : Evaluation) : ℕ → Prop where
  | lhs : Visits r e r.lhs
  | rhs : Visits r e r.rhs
  | operand {i j : ℕ} {node : Node E} : Visits r e i → r.nodes[i]? = some node →
      j ∈ node.evaluatedOperands (e.takesThen i) → Visits r e j

/-- The comparison of two values, relaxed by the slack. -/
def Compares (r : Relation E) (x y : ℝ) : Slack E → Prop
  | .exact => r.comparison.Meets x y
  | .acceptance inequality =>
    match r.comparison with
    | .atLeast => (y : EReal) ≤ x + val inequality
    | .atMost => (x : EReal) ≤ y + val inequality
    | .equal => scalarsEqual E x y r.dimension

/-- The relation holds at the point: every visited node evaluates, and the values of
the sides compare. -/
def Satisfied (r : Relation E) (slack : Slack E) (p : ℕ → ℝ) (e : Evaluation) : Prop :=
  (∀ i node, r.nodes[i]? = some node → r.Visits e i →
    node.Evaluates p e.value (e.takesThen i) (e.value i)) ∧
  r.Compares (e.value r.lhs) (e.value r.rhs) slack

/-- The nodes of the branches that are not taken hold as well. -/
def UntakenHold (r : Relation E) (p : ℕ → ℝ) (e : Evaluation) : Prop :=
  ∀ i node, r.nodes[i]? = some node → ¬ r.Visits e i →
    node.Holds p e.value (e.takesThen i) (e.value i)

end Relation

/-- The values lie in the intervals at their indices. -/
def Encloses (values : List (Interval E)) (value : ℕ → ℝ) : Prop := ∀ i, value i ∈ slot values i

/-- Every interval lies inside the one at its index. -/
def BoxWithin (bx' bx : List (Interval E)) : Prop :=
  bx'.length = bx.length ∧ ∀ i, (slot bx' i).Within (slot bx i)

/-- An inequality slack is not negative. -/
def Slack.Nonneg : Slack E → Prop
  | exact => True
  | acceptance inequality => 0 ≤ val inequality

/-! ## Slots -/

theorem Encloses.set {values : List (Interval E)} {value : ℕ → ℝ} (h : Encloses values value)
    {a : ℕ} {c : Interval E} (hc : value a ∈ c) : Encloses (values.set a c) value := by
  intro i
  rw [slot_set]
  split
  · next hi =>
    rw [← hi.1]
    exact hc
  · exact h i

theorem Encloses.nil (value : ℕ → ℝ) : Encloses ([] : List (Interval E)) value :=
  fun i => mem_entire (value i)

theorem Encloses.snoc {values : List (Interval E)} {value : ℕ → ℝ} (h : Encloses values value)
    {c : Interval E} (hc : value values.length ∈ c) : Encloses (values ++ [c]) value := by
  intro i
  rcases lt_trichotomy i values.length with hi | rfl | hi
  · have heq : slot (values ++ [c]) i = slot values i := by
      simp [slot, List.getElem?_append_left hi]
    rw [heq]
    exact h i
  · simpa [slot] using hc
  · have heq : slot (values ++ [c]) i = entire := by
      simp [slot, List.getElem?_eq_none (l := values ++ [c]) (by simpa using hi)]
    rw [heq]
    exact mem_entire (value i)

theorem BoxWithin.refl (bx : List (Interval E)) : BoxWithin bx bx :=
  ⟨rfl, fun i => Within.refl (slot bx i)⟩

theorem BoxWithin.trans {bx'' bx' bx : List (Interval E)} (h' : BoxWithin bx'' bx')
    (h : BoxWithin bx' bx) : BoxWithin bx'' bx :=
  ⟨h'.1.trans h.1, fun i => (h'.2 i).trans (h.2 i)⟩

theorem BoxWithin.set {bx : List (Interval E)} {a : ℕ} {c : Interval E}
    (hc : c.Within (slot bx a)) : BoxWithin (bx.set a c) bx := by
  refine ⟨List.length_set, ?_⟩
  intro i
  rw [slot_set]
  split
  · next hi =>
    rw [← hi.1]
    exact hc
  · exact Within.refl (slot bx i)

/-! ## Forward encloses -/

theorem Node.keeps_enclose {p value : ℕ → ℝ} {bx values : List (Interval E)} {x : ℝ}
    {takesThen : Bool} (hbx : Encloses bx p) (hvalues : Encloses values value) {node : Node E}
    (h : node.Holds p value takesThen x) : Keeps (node.enclose bx values) x := by
  cases node with
  | const c => exact ⟨c, rfl, h⟩
  | var i => exact ⟨_, rfl, h ▸ hbx i⟩
  | opaqueLeaf => exact ⟨_, rfl, mem_entire x⟩
  | add a b => exact ⟨_, rfl, h ▸ mem_add (hvalues a) (hvalues b)⟩
  | sub a b => exact ⟨_, rfl, h ▸ mem_sub (hvalues a) (hvalues b)⟩
  | mul a b => exact ⟨_, rfl, h ▸ mem_mul (hvalues a) (hvalues b)⟩
  | div a b => exact ⟨_, rfl, mem_div_of_mul_eq (hvalues a) (hvalues b) h⟩
  | neg a => exact ⟨_, rfl, h ▸ mem_neg (hvalues a)⟩
  | powi a n => exact ⟨_, rfl, h ▸ mem_powi (hvalues a) n⟩
  | sqrt a => exact h.2 ▸ keeps_sqrt (hvalues a) h.1
  | abs a => exact ⟨_, rfl, h ▸ mem_abs (hvalues a)⟩
  | min a b => exact ⟨_, rfl, h ▸ mem_min (hvalues a) (hvalues b)⟩
  | max a b => exact ⟨_, rfl, h ▸ mem_max (hvalues a) (hvalues b)⟩
  | hull a b =>
    refine ⟨_, rfl, ?_⟩
    rw [show x = _ from h]
    cases takesThen with
    | true => exact mem_hull_left (hvalues a)
    | false => exact mem_hull_right (hvalues b)

namespace Relation

/-- Every node of the tree holds, on every branch. -/
def AllHold (r : Relation E) (p : ℕ → ℝ) (e : Evaluation) : Prop :=
  ∀ (i : ℕ) (node : Node E), r.nodes[i]? = some node →
    node.Holds p e.value (e.takesThen i) (e.value i)

theorem allHold_of_satisfied {r : Relation E} {slack : Slack E} {p : ℕ → ℝ} {e : Evaluation}
    (h : r.Satisfied slack p e) (huntaken : r.UntakenHold p e) : r.AllHold p e := by
  intro i node hnode
  by_cases hvisits : r.Visits e i
  · exact (h.1 i node hnode hvisits).1
  · exact huntaken i node hnode hvisits

end Relation

theorem encloseAll_encloses {p : ℕ → ℝ} {e : Evaluation} {bx : List (Interval E)}
    (hbx : Encloses bx p) (nodes : List (Node E)) (values : List (Interval E))
    (hvalues : Encloses values e.value)
    (h : ∀ (i : ℕ) (node : Node E), nodes[i]? = some node → node.Holds p e.value
      (e.takesThen (values.length + i)) (e.value (values.length + i))) :
    ∃ values', encloseAll bx nodes values = some values' ∧ Encloses values' e.value := by
  induction nodes generalizing values with
  | nil => exact ⟨values, rfl, hvalues⟩
  | cons node nodes ih =>
    obtain ⟨c, hc, hmem⟩ := node.keeps_enclose hbx hvalues (h 0 node rfl)
    obtain ⟨values', hvalues', hall⟩ := ih (values ++ [c]) (hvalues.snoc hmem) (by
      intro i node' hnode'
      have hnext := h (i + 1) node' hnode'
      rwa [List.length_append, List.length_singleton, Nat.add_assoc, Nat.add_comm 1 i])
    exact ⟨values', by rw [encloseAll, hc]; exact hvalues', hall⟩

/-- The forward pass of a relation whose nodes hold encloses their values. -/
theorem Relation.forward_encloses {r : Relation E} {p : ℕ → ℝ} {e : Evaluation}
    {bx : List (Interval E)} (hbx : Encloses bx p) (h : r.AllHold p e) :
    ∃ values, r.forward bx = some values ∧ Encloses values e.value := by
  refine encloseAll_encloses hbx r.nodes [] (Encloses.nil e.value) ?_
  intro i node hnode
  rw [List.length_nil, Nat.zero_add]
  exact h i node hnode

/-! ## The comparison keeps -/

theorem mem_atLeast {lo : E} {x : ℝ} (h : val lo ≤ x) : x ∈ atLeast lo :=
  mem_enclosure h (by rw [val_inf]; exact le_top)

theorem mem_atMost {hi : E} {x : ℝ} (h : x ≤ val hi) : x ∈ atMost hi :=
  mem_enclosure (by rw [val_negInf]; exact bot_le) h

theorem Comparison.keeps_narrowLhs {comparison : Comparison} {side other : Interval E} {x t : ℝ}
    (hx : x ∈ side) (ht : t ∈ other) (h : comparison.Meets x t) :
    Keeps (comparison.narrowLhs side other) x := by
  cases comparison with
  | atLeast => exact keeps_intersect hx (mem_atLeast (ht.1.trans (EReal.coe_le_coe h)))
  | atMost => exact keeps_intersect hx (mem_atMost (le_trans (EReal.coe_le_coe h) ht.2))
  | equal =>
    have heq : x = t := h
    exact keeps_intersect hx (heq ▸ ht)

theorem Comparison.keeps_narrowRhs {comparison : Comparison} {side other : Interval E} {t y : ℝ}
    (hy : y ∈ side) (ht : t ∈ other) (h : comparison.Meets t y) :
    Keeps (comparison.narrowRhs side other) y := by
  cases comparison with
  | atLeast => exact keeps_intersect hy (mem_atMost (le_trans (EReal.coe_le_coe h) ht.2))
  | atMost => exact keeps_intersect hy (mem_atLeast (ht.1.trans (EReal.coe_le_coe h)))
  | equal =>
    have heq : t = y := h
    exact keeps_intersect hy (heq ▸ ht)

/-- What a side shifted by at most the inequality slack lands in. -/
theorem mem_add_band {side : Interval E} {inequality : E} {s t : ℝ} (hs : s ∈ side)
    (hts : (t : EReal) ≤ s + val inequality) (hst : (s : EReal) ≤ t + val inequality) :
    t ∈ side.add ((Interval.new (Endpoint.neg inequality) inequality).getD entire) := by
  have hshift {a b : ℝ} (h : (a : EReal) ≤ b + val inequality) :
      ((a - b : ℝ) : EReal) ≤ val inequality := by
    rw [EReal.coe_sub]
    exact EReal.sub_le_of_le_add' h
  have hband : t - s ∈ enclosure (Endpoint.neg inequality) inequality := by
    refine mem_enclosure ?_ (hshift hts)
    rw [LawfulEndpoint.val_neg, EReal.neg_le, ← EReal.coe_neg, neg_sub]
    exact hshift hst
  have hsum := mem_add hs hband
  rwa [add_sub_cancel] at hsum

namespace Relation

variable {r : Relation E} {slack : Slack E} {x y : ℝ}

/-- The relaxed right side has a value that the left side meets. -/
theorem exists_mem_relaxed_rhs (hslack : slack.Nonneg) {side : Interval E} (hy : y ∈ side)
    (h : r.Compares x y slack) : ∃ t ∈ r.relaxed side slack, r.comparison.Meets x t := by
  cases slack with
  | exact => exact ⟨y, hy, h⟩
  | acceptance inequality =>
    have hself (z : ℝ) : (z : EReal) ≤ z + val inequality := le_add_of_nonneg_right hslack
    rw [Compares] at h
    rw [relaxed]
    cases hc : r.comparison with
    | atLeast =>
      rw [hc] at h
      rcases le_total y x with hle | hle
      · exact ⟨y, mem_add_band hy (hself y) (hself y), hle⟩
      · exact ⟨x, mem_add_band hy ((EReal.coe_le_coe hle).trans (hself y)) h, le_rfl⟩
    | atMost =>
      rw [hc] at h
      rcases le_total x y with hle | hle
      · exact ⟨y, mem_add_band hy (hself y) (hself y), hle⟩
      · exact ⟨x, mem_add_band hy h ((EReal.coe_le_coe hle).trans (hself x)), le_rfl⟩
    | equal =>
      rw [hc] at h
      have hband := equalityBand_encloses side.lo side.hi r.dimension x y hy.1 hy.2 h
      exact ⟨x, mem_enclosure hband.1 hband.2, rfl⟩

/-- The relaxed left side has a value that meets the right side. -/
theorem exists_mem_relaxed_lhs (hslack : slack.Nonneg) {side : Interval E} (hx : x ∈ side)
    (h : r.Compares x y slack) : ∃ t ∈ r.relaxed side slack, r.comparison.Meets t y := by
  cases slack with
  | exact => exact ⟨x, hx, h⟩
  | acceptance inequality =>
    have hself (z : ℝ) : (z : EReal) ≤ z + val inequality := le_add_of_nonneg_right hslack
    rw [Compares] at h
    rw [relaxed]
    cases hc : r.comparison with
    | atLeast =>
      rw [hc] at h
      rcases le_total y x with hle | hle
      · exact ⟨x, mem_add_band hx (hself x) (hself x), hle⟩
      · exact ⟨y, mem_add_band hx h ((EReal.coe_le_coe hle).trans (hself y)), le_rfl⟩
    | atMost =>
      rw [hc] at h
      rcases le_total x y with hle | hle
      · exact ⟨x, mem_add_band hx (hself x) (hself x), hle⟩
      · exact ⟨y, mem_add_band hx ((EReal.coe_le_coe hle).trans (hself x)) h, le_rfl⟩
    | equal =>
      rw [hc] at h
      have hband := equalityBand_encloses side.lo side.hi r.dimension y x hx.1 hx.2
        (scalarsEqual_symm x y r.dimension h)
      exact ⟨y, mem_enclosure hband.1 hband.2, rfl⟩

/-- The comparison keeps the values of the two sides. -/
theorem compare_encloses {values : List (Interval E)} {value : ℕ → ℝ} (hslack : slack.Nonneg)
    (hvalues : Encloses values value) (h : r.Compares (value r.lhs) (value r.rhs) slack) :
    ∃ values', r.compare values slack = some values' ∧ Encloses values' value := by
  obtain ⟨t, ht, hmeets⟩ := exists_mem_relaxed_rhs hslack (hvalues r.rhs) h
  obtain ⟨lhs, hlhs, hmem⟩ := Comparison.keeps_narrowLhs (hvalues r.lhs) ht hmeets
  obtain ⟨t', ht', hmeets'⟩ := exists_mem_relaxed_lhs hslack hmem h
  obtain ⟨rhs, hrhs, hmem'⟩ := Comparison.keeps_narrowRhs (hvalues r.rhs) ht' hmeets'
  refine ⟨(values.set r.lhs lhs).set r.rhs rhs, ?_, (hvalues.set hmem).set hmem'⟩
  simp only [compare, hlhs, hrhs, Option.bind_eq_bind, Option.bind_some, Option.pure_def]

end Relation

/-! ## Backward keeps -/

theorem narrowBoth_encloses {values : List (Interval E)} {value : ℕ → ℝ} {a b : ℕ}
    {first second : Interval E → Interval E → Option (Interval E)}
    (hvalues : Encloses values value)
    (hfirst : ∀ c d, value a ∈ c → value b ∈ d → Keeps (first c d) (value a))
    (hsecond : ∀ d c, value b ∈ d → value a ∈ c → Keeps (second d c) (value b)) :
    ∃ values', narrowBoth values a b first second = some values' ∧ Encloses values' value := by
  obtain ⟨c, hc, hmem⟩ := hfirst _ _ (hvalues a) (hvalues b)
  have hset := hvalues.set hmem
  obtain ⟨d, hd, hmem'⟩ := hsecond _ _ (hset b) (hset a)
  refine ⟨(values.set a c).set b d, ?_, hset.set hmem'⟩
  simp only [narrowBoth, hc, hd, Option.bind_eq_bind, Option.bind_some, Option.pure_def]

theorem Encloses.map_set {values : List (Interval E)} {value : ℕ → ℝ}
    (hvalues : Encloses values value) {a : ℕ} {c : Option (Interval E)} (hc : Keeps c (value a)) :
    ∃ values', c.map (values.set a) = some values' ∧ Encloses values' value := by
  obtain ⟨c, rfl, hmem⟩ := hc
  exact ⟨values.set a c, rfl, hvalues.set hmem⟩

/-- Projecting a node keeps the values of its operands. -/
theorem Node.project_encloses {p value : ℕ → ℝ} {values : List (Interval E)} {z : Interval E}
    {x : ℝ} {takesThen : Bool} (hvalues : Encloses values value) (hz : x ∈ z) {node : Node E}
    (h : node.Holds p value takesThen x) :
    ∃ values', node.project z values = some values' ∧ Encloses values' value := by
  cases node with
  | const _ | var _ | opaqueLeaf | hull _ _ => exact ⟨values, rfl, hvalues⟩
  | add a b =>
    rw [Node.project]
    refine narrowBoth_encloses hvalues ?_ ?_
    · intro c d hc hd
      have hsub := mem_sub hz hd
      rw [show x = _ from h, add_sub_cancel_right] at hsub
      exact keeps_intersect hc hsub
    · intro d c hd hc
      have hsub := mem_sub hz hc
      rw [show x = _ from h, add_sub_cancel_left] at hsub
      exact keeps_intersect hd hsub
  | sub a b =>
    rw [Node.project]
    refine narrowBoth_encloses hvalues ?_ ?_
    · intro c d hc hd
      have hadd := mem_add hz hd
      rw [show x = _ from h, sub_add_cancel] at hadd
      exact keeps_intersect hc hadd
    · intro d c hd hc
      have hsub := mem_sub hc hz
      rw [show x = _ from h, sub_sub_cancel] at hsub
      exact keeps_intersect hd hsub
  | mul a b =>
    have hmul : x = value a * value b := h
    refine narrowBoth_encloses hvalues ?_ ?_
    · intro c d hc hd
      exact keeps_mulPreimage hc hd (hmul ▸ hz)
    · intro d c hd hc
      exact keeps_mulPreimage hd hc (mul_comm (value a) (value b) ▸ hmul ▸ hz)
  | div a b =>
    refine narrowBoth_encloses hvalues ?_ ?_
    · intro c d hc hd
      exact keeps_divNumeratorPreimage hc hd hz h
    · intro d c hd hc
      exact keeps_divDenominatorPreimage hc hd hz h
  | neg a =>
    have hneg := mem_neg hz
    rw [show x = _ from h, neg_neg] at hneg
    exact hvalues.map_set (keeps_intersect (hvalues a) hneg)
  | powi a n =>
    have hpow : x = value a ^ n := h
    exact hvalues.map_set (keeps_powiPreimage (hvalues a) (hpow ▸ hz))
  | sqrt a => exact hvalues.map_set (keeps_sqrtPreimage (hvalues a) h.1 (h.2 ▸ hz))
  | abs a =>
    have habs : x = |value a| := h
    exact hvalues.map_set (keeps_absPreimage (hvalues a) (habs ▸ hz))
  | min a b =>
    have hmin : x = Min.min (value a) (value b) := h
    refine narrowBoth_encloses hvalues ?_ ?_
    · intro c d hc hd
      exact keeps_minPreimage hc hd (hmin ▸ hz)
    · intro d c hd hc
      exact keeps_minPreimage hd hc (min_comm (value a) (value b) ▸ hmin ▸ hz)
  | max a b =>
    have hmax : x = Max.max (value a) (value b) := h
    refine narrowBoth_encloses hvalues ?_ ?_
    · intro c d hc hd
      exact keeps_maxPreimage hc hd (hmax ▸ hz)
    · intro d c hd hc
      exact keeps_maxPreimage hd hc (max_comm (value a) (value b) ▸ hmax ▸ hz)

/-- Only a variable narrows the box, and it keeps the variable's value. -/
theorem Node.narrowBox_encloses {p value : ℕ → ℝ} {bx : List (Interval E)} {z : Interval E}
    {x : ℝ} {takesThen : Bool} (hbx : Encloses bx p) (hz : x ∈ z) {node : Node E}
    (h : node.Holds p value takesThen x) :
    ∃ bx', node.narrowBox z bx = some bx' ∧ Encloses bx' p := by
  cases node with
  | var i =>
    rw [Node.narrowBox]
    split
    · next y hy =>
      have hslot : slot bx i = y := by
        rw [slot, List.getD_eq_getElem?_getD, hy, Option.getD_some]
      have hvar : x = p i := h
      exact hbx.map_set (keeps_intersect (hslot ▸ hbx i) (hvar ▸ hz))
    · exact ⟨bx, rfl, hbx⟩
  | _ => exact ⟨bx, rfl, hbx⟩

theorem Node.narrowBox_within {z : Interval E} {bx bx' : List (Interval E)} {node : Node E}
    (h : node.narrowBox z bx = some bx') : BoxWithin bx' bx := by
  cases node with
  | var i =>
    rw [Node.narrowBox] at h
    split at h
    · next y hy =>
      obtain ⟨c, hc, rfl⟩ := Option.map_eq_some_iff.mp h
      have hslot : slot bx i = y := by
        rw [slot, List.getD_eq_getElem?_getD, hy, Option.getD_some]
      refine BoxWithin.set ?_
      rw [hslot]
      exact within_of_intersect hc
    · cases h
      exact BoxWithin.refl bx
  | _ =>
    cases h
    exact BoxWithin.refl bx

/-- Projecting every node keeps the point: at each node the invariant is that the
values are enclosed and the point is in the box. -/
theorem projectAll_encloses {p : ℕ → ℝ} {e : Evaluation} {nodes : List (Node E)}
    (h : ∀ (i : ℕ) (node : Node E), nodes[i]? = some node →
      node.Holds p e.value (e.takesThen i) (e.value i))
    (k : ℕ) {values bx : List (Interval E)} (hvalues : Encloses values e.value)
    (hbx : Encloses bx p) :
    (projectAll nodes k values bx).1 = .consistent ∧ Encloses (projectAll nodes k values bx).2 p := by
  induction k generalizing values bx with
  | zero => exact ⟨rfl, hbx⟩
  | succ index ih =>
    have hnode : (nodes.getD index .opaqueLeaf).Holds p e.value (e.takesThen index)
        (e.value index) := by
      rw [List.getD_eq_getElem?_getD]
      cases hget : nodes[index]? with
      | none => trivial
      | some node => exact h index node hget
    obtain ⟨values', hproject, hvalues'⟩ :=
      Node.project_encloses hvalues (hvalues index) hnode
    obtain ⟨bx', hnarrow, hbx'⟩ := Node.narrowBox_encloses hbx (hvalues index) hnode
    rw [projectAll, hproject, hnarrow]
    exact ih hvalues' hbx'

theorem projectAll_within (nodes : List (Node E)) (k : ℕ) (values bx : List (Interval E)) :
    BoxWithin (projectAll nodes k values bx).2 bx := by
  induction k generalizing values bx with
  | zero => exact BoxWithin.refl bx
  | succ index ih =>
    rw [projectAll]
    split
    · next values' bx' _ hnarrow => exact (ih values' bx').trans (Node.narrowBox_within hnarrow)
    · exact BoxWithin.refl bx

/-! ## Revision and contraction -/

namespace Relation

/-- **Revising a relation keeps the points at which it holds** and every node of its
tree does. -/
theorem revise_keeps {r : Relation E} {slack : Slack E} {p : ℕ → ℝ} {e : Evaluation}
    {bx : List (Interval E)} (hslack : slack.Nonneg) (hbx : Encloses bx p)
    (h : r.Satisfied slack p e) (huntaken : r.UntakenHold p e) :
    (r.revise bx slack).1 = .consistent ∧ Encloses (r.revise bx slack).2 p := by
  have hall := allHold_of_satisfied h huntaken
  obtain ⟨values, hforward, hvalues⟩ := forward_encloses hbx hall
  obtain ⟨values', hcompare, hvalues'⟩ := compare_encloses hslack hvalues h.2
  rw [revise, hforward, Option.bind_some, hcompare]
  exact projectAll_encloses hall r.nodes.length hvalues' hbx

theorem revise_within (r : Relation E) (bx : List (Interval E)) (slack : Slack E) :
    BoxWithin (r.revise bx slack).2 bx := by
  rw [revise]
  split
  · exact projectAll_within r.nodes r.nodes.length _ bx
  · exact BoxWithin.refl bx

end Relation

/-- The relation holds at the point for some evaluation under which the branches that
are not taken hold as well. -/
def Relation.SatisfiedThroughout (r : Relation E) (slack : Slack E) (p : ℕ → ℝ) : Prop :=
  ∃ e, r.Satisfied slack p e ∧ r.UntakenHold p e

theorem sweep_keeps {relations : List (Relation E)} {slack : Slack E} {p : ℕ → ℝ}
    (hslack : slack.Nonneg) (h : ∀ r ∈ relations, r.SatisfiedThroughout slack p) (index : ℕ)
    {bx : List (Interval E)} (hbx : Encloses bx p) :
    (sweep slack index relations bx).1 = .consistent ∧
      Encloses (sweep slack index relations bx).2 p := by
  induction relations generalizing index bx with
  | nil => exact ⟨rfl, hbx⟩
  | cons r relations ih =>
    obtain ⟨e, hsat, huntaken⟩ := h r List.mem_cons_self
    obtain ⟨hconsistent, hbx'⟩ := Relation.revise_keeps hslack hbx hsat huntaken
    have hrest := ih (fun r' hr' => h r' (List.mem_cons_of_mem r hr')) (index + 1) hbx'
    rw [sweep]
    split
    · next bx' heq => rw [heq] at hconsistent; cases hconsistent
    · next bx' heq => rwa [heq] at hrest

theorem sweep_within (relations : List (Relation E)) (slack : Slack E) (index : ℕ)
    (bx : List (Interval E)) : BoxWithin (sweep slack index relations bx).2 bx := by
  induction relations generalizing index bx with
  | nil => exact BoxWithin.refl bx
  | cons r relations ih =>
    have hrevise := r.revise_within bx slack
    rw [sweep]
    split
    · next bx' heq => rwa [heq] at hrevise
    · next bx' heq =>
      rw [heq] at hrevise
      exact (ih (index + 1) bx').trans hrevise

theorem sweeps_keeps {relations : List (Relation E)} {slack : Slack E} {p : ℕ → ℝ}
    (hslack : slack.Nonneg) (h : ∀ r ∈ relations, r.SatisfiedThroughout slack p) (budget : ℕ)
    {bx : List (Interval E)} (hbx : Encloses bx p) :
    (sweeps relations slack budget bx).1 = .consistent ∧
      Encloses (sweeps relations slack budget bx).2 p := by
  induction budget generalizing bx with
  | zero => exact ⟨rfl, hbx⟩
  | succ budget ih =>
    obtain ⟨hconsistent, hbx'⟩ := sweep_keeps hslack h 0 hbx
    rw [sweeps]
    split
    · next bx' index heq => rw [heq] at hconsistent; cases hconsistent
    · next after heq =>
      rw [heq] at hbx'
      split
      · exact ih hbx'
      · exact ⟨rfl, hbx'⟩

theorem sweeps_within (relations : List (Relation E)) (slack : Slack E) (budget : ℕ)
    (bx : List (Interval E)) : BoxWithin (sweeps relations slack budget bx).2 bx := by
  induction budget generalizing bx with
  | zero => exact BoxWithin.refl bx
  | succ budget ih =>
    have hsweep := sweep_within relations slack 0 bx
    rw [sweeps]
    split
    · next index after heq => rwa [heq] at hsweep
    · next after heq =>
      rw [heq] at hsweep
      split
      · exact (ih after).trans hsweep
      · exact hsweep

/-- **Contraction only narrows the box, and keeps every point at which all the
relations hold**, with the branches that are not taken. -/
theorem contract_keeps (relations : List (Relation E)) (bx : List (Interval E)) (slack : Slack E)
    (hslack : slack.Nonneg) :
    BoxWithin (contract relations bx slack).2 bx ∧
      ∀ p : ℕ → ℝ, Encloses bx p → (∀ r ∈ relations, r.SatisfiedThroughout slack p) →
        (contract relations bx slack).1 = .consistent ∧
          Encloses (contract relations bx slack).2 p := by
  refine ⟨sweeps_within relations slack hc4MaxSweeps bx, ?_⟩
  intro p hbx h
  exact sweeps_keeps hslack h hc4MaxSweeps hbx

end

/-! ## A conditional root -/

/-- The rational interval. -/
def rationalInterval (a b : ℚ) (h : a ≤ b) : Interval ExtendedRat :=
  ⟨.finite a, .finite b, by simp [wellFormed, Endpoint.le, ExtendedRat.le, h, Endpoint.inf,
    Endpoint.negInf]⟩

theorem mem_rationalInterval {a b : ℚ} {h : a ≤ b} {x : ℝ} :
    x ∈ rationalInterval a b h ↔ (a : ℝ) ≤ x ∧ x ≤ b :=
  and_congr EReal.coe_le_coe_iff EReal.coe_le_coe_iff

theorem encloses_rationalInterval {a b : ℚ} (h : a ≤ b) {p : ℕ → ℝ}
    (hp : (a : ℝ) ≤ p 0 ∧ p 0 ≤ b) : Encloses [rationalInterval a b h] p := by
  intro i
  cases i with
  | zero => exact (mem_rationalInterval (h := h)).mpr hp
  | succ i => exact Interval.mem_entire (p (i + 1))

/-- `(if x >= 0 { sqrt(x) } else { 0 }) >= -1`. -/
def guardedRoot : Relation ExtendedRat where
  nodes := [.var 0, .sqrt 0, .const (rationalInterval 0 0 le_rfl), .hull 1 2,
    .const (rationalInterval (-1) (-1) le_rfl)]
  lhs := 3
  rhs := 4
  comparison := .atLeast
  dimension := DimensionVector.dimensionless
  operands_lt := by decide
  sides_lt := by decide

/-- The values of its nodes at a point, given the branch taken. -/
noncomputable def guardedRootAt (x : ℝ) (takesThen : Bool) : Evaluation where
  value i := [x, Real.sqrt x, 0, if takesThen then Real.sqrt x else 0, -1].getD i 0
  takesThen _ := takesThen

/-- Where the root is not taken, only the constants and the conditional are visited. -/
theorem visits_guardedRoot {x : ℝ} {i : ℕ} (h : guardedRoot.Visits (guardedRootAt x false) i) :
    i = 2 ∨ i = 3 ∨ i = 4 := by
  induction h with
  | lhs => exact .inr (.inl rfl)
  | rhs => exact .inr (.inr rfl)
  | operand _ hnode hj ih =>
    rcases ih with rfl | rfl | rfl <;> cases hnode
    · cases hj
    · exact .inl (List.mem_singleton.mp hj)
    · cases hj

theorem guardedRoot_satisfied_neg_one :
    guardedRoot.Satisfied .exact (fun _ => -1) (guardedRootAt (-1) false) := by
  refine ⟨?_, ?_⟩
  · intro i node hnode hvisits
    rcases visits_guardedRoot hvisits with rfl | rfl | rfl <;> cases hnode
    · refine ⟨?_, by simp⟩
      exact mem_rationalInterval.mpr (by simp [guardedRootAt])
    · exact ⟨rfl, by simp⟩
    · refine ⟨?_, by simp⟩
      exact mem_rationalInterval.mpr (by simp [guardedRootAt])
  · show (-1 : ℝ) ≤ 0
    norm_num

/-- The point `-1` of the box `[-2, -1]` satisfies the relation, and is in `[-2, 4]` too;
yet the first box is reported empty, and the second is narrowed away from the point. -/
theorem guardedRoot_loses_point :
    (Encloses [rationalInterval (-2) (-1) (by norm_num)] (fun _ => -1) ∧
      Encloses [rationalInterval (-2) 4 (by norm_num)] (fun _ => -1)) ∧
    (∃ e, guardedRoot.Satisfied .exact (fun _ => -1) e) ∧
    (contract [guardedRoot] [rationalInterval (-2) (-1) (by norm_num)] .exact).1 = .empty 0 ∧
    ¬ Encloses (contract [guardedRoot] [rationalInterval (-2) 4 (by norm_num)] .exact).2
      (fun _ => -1) := by
  refine ⟨⟨?_, ?_⟩, ⟨_, guardedRoot_satisfied_neg_one⟩, by decide +kernel, ?_⟩
  · exact encloses_rationalInterval _ (by norm_num)
  · exact encloses_rationalInterval _ (by norm_num)
  · intro h
    -- The narrowed box starts at zero.
    have hlo : (slot (contract [guardedRoot] [rationalInterval (-2) 4 (by norm_num)] .exact).2
        0).lo = .finite 0 := by decide +kernel
    have hmem := (h 0).1
    rw [hlo] at hmem
    exact absurd (EReal.coe_le_coe_iff.mp hmem) (by norm_num)

/-- At the point `4` of the box `[1, 4]` both branches evaluate. -/
theorem contract_keeps_guardedRoot :
    (contract [guardedRoot] [rationalInterval 1 4 (by norm_num)] .exact).1 = .consistent ∧
      Encloses (contract [guardedRoot] [rationalInterval 1 4 (by norm_num)] .exact).2
        (fun _ => 4) := by
  refine (contract_keeps [guardedRoot] [rationalInterval 1 4 (by norm_num)] .exact trivial).2
    (fun _ => 4) (encloses_rationalInterval _ (by norm_num)) ?_
  intro r hr
  obtain rfl := List.mem_singleton.mp hr
  have hall : guardedRoot.AllHold (fun _ => 4) (guardedRootAt 4 true) := by
    intro i node hnode
    match i, hnode with
    | 0, rfl => rfl
    | 1, rfl => exact ⟨by simp [guardedRootAt], rfl⟩
    | 2, rfl => exact mem_rationalInterval.mpr (by simp [guardedRootAt])
    | 3, rfl => rfl
    | 4, rfl => exact mem_rationalInterval.mpr (by simp [guardedRootAt])
  refine ⟨guardedRootAt 4 true, ⟨?_, ?_⟩, fun i node hnode _ => hall i node hnode⟩
  · intro i node hnode _
    refine ⟨hall i node hnode, ?_⟩
    rintro a b rfl
    match i, hnode with
    | 0, h | 1, h | 2, h | 3, h | 4, h => cases h
  · show (-1 : ℝ) ≤ Real.sqrt 4
    exact (by norm_num : (-1 : ℝ) ≤ 0).trans (Real.sqrt_nonneg 4)

end Reify
