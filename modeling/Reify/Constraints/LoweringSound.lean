import Reify.Constraints.LoweringSpec

/-!
# Lowering keeps values

Expressions mean real numbers, given what the cells, the conditions and the expressions that
lowering does not tell apart mean.  Where an expression has a value, the tree that it is
lowered to can be evaluated to the same value, with every conditional taking the branch of
the expression it stands for.

## Main definitions

* `LoweredExpr.realValue`: the value of an expression under a `Meaning`.
* `OperandClassifier.Agrees`: the classifier knows the meaning at a point.
* `YieldsAt`: the tree below a node evaluates to a value.

## Main results

* `TreeBuilder.Computes.evaluates`: one node.
* `Relation.lowerSides_faithful`: both sides of a compiled comparison.
-/

namespace Reify

open Foundation

variable {E H O : Type}

/-! ## Real values -/

/-- The meaning of what lowering takes as given: the cells, the conditions, and the
expressions it does not tell apart. -/
structure Meaning (H O : Type) where
  cell : ValueCellId → Option ℝ
  truth : LoweredExpr H O → Option Bool
  other : LoweredExpr H O → Option ℝ

namespace Meaning

variable (m : Meaning H O)

open Classical in
/-- The value of a numeric binary operation; a power that is not natural is taken as given. -/
noncomputable def arithmetic (e : LoweredExpr H O) (op : BinOp) (x y : Option ℝ) : Option ℝ :=
  match op with
  | .add => x.bind fun a => y.map fun b => a + b
  | .sub => x.bind fun a => y.map fun b => a - b
  | .mul => x.bind fun a => y.map fun b => a * b
  | .div => x.bind fun a => y.bind fun b => if b = 0 then none else some (a / b)
  | .pow => x.bind fun a => y.bind fun b =>
    if b = (⌊b⌋₊ : ℝ) then some (a ^ ⌊b⌋₊) else m.other e
  | _ => m.other e

open Classical in
/-- The value of a builtin call; a clamp needs its bounds in order. -/
noncomputable def builtin (e : LoweredExpr H O) (name : String) (args : List (Option ℝ)) :
    Option ℝ :=
  match name, args with
  | "sqrt", [x] => x.bind fun a => if 0 ≤ a then some (Real.sqrt a) else none
  | "abs", [x] => x.map fun a => |a|
  | "min", [x, y] => x.bind fun a => y.map fun b => Min.min a b
  | "max", [x, y] => x.bind fun a => y.map fun b => Max.max a b
  | "clamp", [x, lo, hi] => x.bind fun a => lo.bind fun l => hi.bind fun h =>
    if l ≤ h then some (Min.min (Max.max a l) h) else none
  | _, _ => m.other e

end Meaning

namespace LoweredExpr

mutual

/-- The value of an expression, where it is defined. -/
noncomputable def realValue (m : Meaning H O) : LoweredExpr H O → Option ℝ
  | valueRef _ id => m.cell id
  | binOp info op left right =>
    if left.isNumeric && right.isNumeric then
      m.arithmetic (binOp info op left right) op (left.realValue m) (right.realValue m)
    else m.other (binOp info op left right)
  | unOp info op operand =>
    if op = .neg && operand.isNumeric then (operand.realValue m).map fun a => -a
    else m.other (unOp info op operand)
  | functionCall info name args =>
    if args.all isNumeric then m.builtin (functionCall info name args) name (realValues m args)
    else m.other (functionCall info name args)
  | conditional info condition thenBranch elseBranch =>
    if thenBranch.isNumeric && elseBranch.isNumeric then
      (m.truth condition).bind fun taken =>
        if taken then thenBranch.realValue m else elseBranch.realValue m
    else m.other (conditional info condition thenBranch elseBranch)
  | other info data refs => m.other (other info data refs)

noncomputable def realValues (m : Meaning H O) : List (LoweredExpr H O) → List (Option ℝ)
  | [] => []
  | arg :: args => arg.realValue m :: realValues m args

end

/-- Whether a conditional takes its then branch. -/
def taken (m : Meaning H O) : LoweredExpr H O → Bool
  | conditional _ condition _ _ => (m.truth condition).getD false
  | _ => false

end LoweredExpr

open LawfulEndpoint

/-- Reading a natural number off an endpoint is exact. -/
class LawfulNaturalReader (E : Type) [Endpoint E] [LawfulEndpoint E] [NaturalReader E] :
    Prop where
  asNat_eq_some : ∀ (v : E) (n : ℕ), NaturalReader.asNat v = some n ↔ val v = ((n : ℝ) : EReal)

/-- What the classifier says of cells and of constant expressions is so at the point. -/
structure OperandClassifier.Agrees [Endpoint E] [LawfulEndpoint E] (c : OperandClassifier E H O)
    (m : Meaning H O) (p : ℕ → ℝ) : Prop where
  classify_eq : ∀ id k v, c.classify id = .variable k → m.cell id = some v → v = p k
  evaluate_eq : ∀ e x v, TreeBuilder.isFixed c e = true → c.evaluate e = some x →
    e.realValue m = some v → val x = (v : EReal)

/-! ## Trees that evaluate -/

section
variable [Endpoint E]

/-- The nodes that an evaluation from the root visits. -/
inductive Reaches (nodes : List (Node E)) (ev : Evaluation) (root : ℕ) : ℕ → Prop where
  | root : Reaches nodes ev root root
  | operand {i j : ℕ} {node : Node E} : Reaches nodes ev root i → nodes[i]? = some node →
      j ∈ node.evaluatedOperands (ev.takesThen i) → Reaches nodes ev root j

variable [LawfulEndpoint E]

/-- The tree below a node evaluates to the value, at a point `p`. -/
def YieldsAt (nodes : List (Node E)) (p : ℕ → ℝ) (ev : Evaluation) (root : ℕ) (v : ℝ) : Prop :=
  ev.value root = v ∧ ∀ i node, nodes[i]? = some node → Reaches nodes ev root i →
    node.Evaluates p ev.value (ev.takesThen i) (ev.value i)

end

/-- Every conditional takes the branch that the expression it stands for takes. -/
def TakesBranches [Endpoint E] (m : Meaning H O) (nodes : List (Node E))
    (origin : ℕ → Option (LoweredExpr H O)) (ev : Evaluation) : Prop :=
  ∀ i a b, nodes[i]? = some (.hull a b) → ∃ info condition t f,
    origin i = some (.conditional info condition t f) ∧ origin a = some t ∧ origin b = some f ∧
    ∀ taken, m.truth condition = some taken → ev.takesThen i = taken

namespace TreeBuilder

section
variable [Endpoint E] [LawfulEndpoint E] [NaturalReader E]
variable {c : OperandClassifier E H O} {m : Meaning H O} {p : ℕ → ℝ}

/-- The nodes that stand for the operands have values, where the expression has one. -/
def OperandsDefined (m : Meaning H O) (built : Built E H O) (operands : List ℕ) : Prop :=
  ∀ j ∈ operands, ∃ e, Origin built j e ∧ e.HashesSeparate ∧ ∃ v, e.realValue m = some v

/-- The values of the nodes are those of the expressions they stand for. -/
def ValuesMeant (m : Meaning H O) (built : Built E H O) (value : ℕ → ℝ) : Prop :=
  ∀ i e v, Origin built i e → e.realValue m = some v → value i = v

omit [LawfulEndpoint E] [NaturalReader E] in
/-- An operation on one operand. -/
theorem ValuesMeant.one {built : Built E H O} {value : ℕ → ℝ} (h : ValuesMeant m built value)
    {a : ℕ} {e : LoweredExpr H O} (ha : Origin built a e) (hsep : e.HashesSeparate) {f : ℝ → ℝ}
    {v : ℝ} (hv : ((e.realValue m).map fun x => f x) = some v) :
    v = f (value a) ∧ OperandsDefined m built [a] := by
  obtain ⟨x, hx, rfl⟩ := Option.map_eq_some_iff.1 hv
  rw [h a e x ha hx]
  refine ⟨rfl, fun j hj => ?_⟩
  obtain rfl := List.mem_singleton.1 hj
  exact ⟨e, ha, hsep, x, hx⟩

omit [LawfulEndpoint E] [NaturalReader E] in
/-- A partial operation on two operands. -/
theorem ValuesMeant.two_bind {built : Built E H O} {value : ℕ → ℝ} (h : ValuesMeant m built value)
    {a b : ℕ} {e e' : LoweredExpr H O} (ha : Origin built a e) (hb : Origin built b e')
    (hsep : e.HashesSeparate) (hsep' : e'.HashesSeparate) {f : ℝ → ℝ → Option ℝ} {v : ℝ}
    (hv : ((e.realValue m).bind fun x => (e'.realValue m).bind fun y => f x y) = some v) :
    f (value a) (value b) = some v ∧ OperandsDefined m built [a, b] := by
  obtain ⟨x, hx, hv⟩ := Option.bind_eq_some_iff.1 hv
  obtain ⟨y, hy, hv⟩ := Option.bind_eq_some_iff.1 hv
  rw [h a e x ha hx, h b e' y hb hy]
  refine ⟨hv, fun j hj => ?_⟩
  rcases List.mem_pair.1 hj with rfl | rfl
  · exact ⟨e, ha, hsep, x, hx⟩
  · exact ⟨e', hb, hsep', y, hy⟩

omit [LawfulEndpoint E] [NaturalReader E] in
/-- An operation on two operands. -/
theorem ValuesMeant.two {built : Built E H O} {value : ℕ → ℝ} (h : ValuesMeant m built value)
    {a b : ℕ} {e e' : LoweredExpr H O} (ha : Origin built a e) (hb : Origin built b e')
    (hsep : e.HashesSeparate) (hsep' : e'.HashesSeparate) {f : ℝ → ℝ → ℝ} {v : ℝ}
    (hv : ((e.realValue m).bind fun x => (e'.realValue m).map fun y => f x y) = some v) :
    v = f (value a) (value b) ∧ OperandsDefined m built [a, b] := by
  simp only [Option.map_eq_bind] at hv
  obtain ⟨hv, hops⟩ := h.two_bind ha hb hsep hsep' hv
  exact ⟨(Option.some.inj hv).symm, hops⟩

omit [NaturalReader E] in
theorem mem_point {x : E} {point : Interval E} {v : ℝ} (h : Interval.point x = some point)
    (hx : val x = (v : EReal)) : v ∈ point := by
  rw [Interval.point] at h
  split at h
  · obtain ⟨hwf, hc⟩ := Interval.checked_of_mem hx.le hx.ge
    rw [hc] at h
    obtain rfl := Option.some.inj h
    exact ⟨hx.le, hx.ge⟩
  · cases h

/-- A fixed exponent has the value that was read off it. -/
theorem eq_of_integerExponent [LawfulNaturalReader E] (hagree : c.Agrees m p)
    {e : LoweredExpr H O} {n : ℕ} {w : ℝ} (hfixed : isFixed c e = true)
    (hn : integerExponent c e = some n) (hw : e.realValue m = some w) : w = n := by
  rw [integerExponent] at hn
  split at hn
  · next k hk =>
    split at hn
    · obtain rfl := Option.some.inj hn
      obtain ⟨x, hx, hk⟩ := Option.bind_eq_some_iff.1 hk
      have hval := hagree.evaluate_eq e x w hfixed hx hw
      rw [(LawfulNaturalReader.asNat_eq_some x k).1 hk] at hval
      exact (EReal.coe_injective hval).symm
    · cases hn
  · cases hn

theorem realValue_one {info : ExprInfo H} {name : String} {x : LoweredExpr H O}
    (hx : x.isNumeric = true) : (LoweredExpr.functionCall info name [x]).realValue m =
      m.builtin (.functionCall info name [x]) name [x.realValue m] := by
  simp [LoweredExpr.realValue, LoweredExpr.realValues, hx]

theorem realValue_two {info : ExprInfo H} {name : String} {x y : LoweredExpr H O}
    (hx : x.isNumeric = true) (hy : y.isNumeric = true) :
    (LoweredExpr.functionCall info name [x, y]).realValue m =
      m.builtin (.functionCall info name [x, y]) name [x.realValue m, y.realValue m] := by
  simp [LoweredExpr.realValue, LoweredExpr.realValues, hx, hy]

/-- A node that computes an expression with a value evaluates to it. -/
theorem Computes.evaluates [LawfulNaturalReader E] (hagree : c.Agrees m p) {built : Built E H O}
    {e : LoweredExpr H O} {node : Node E} {v : ℝ} (h : Computes c built e node)
    (hsep : e.HashesSeparate) (hv : e.realValue m = some v) {value : ℕ → ℝ}
    (hvalue : ValuesMeant m built value) :
    node.Evaluates p value (e.taken m) v ∧
      OperandsDefined m built (node.evaluatedOperands (e.taken m)) := by
  cases h with
  | const hconst hx hp =>
    refine ⟨⟨mem_point hp (hagree.evaluate_eq _ _ _ (hconst hsep) hx hv), ?_⟩, ?_⟩
    · rintro a b ⟨⟩
    · rintro j ⟨⟩
  | opaqueLeaf =>
    refine ⟨⟨trivial, ?_⟩, ?_⟩
    · rintro a b ⟨⟩
    · rintro j ⟨⟩
  | var hk =>
    refine ⟨⟨hagree.classify_eq _ _ _ hk hv, ?_⟩, ?_⟩
    · rintro a b ⟨⟩
    · rintro j ⟨⟩
  | add hl hr ha hb =>
    rw [LoweredExpr.HashesSeparate] at hsep
    rw [LoweredExpr.realValue, hl, hr] at hv
    obtain ⟨rfl, hops⟩ := hvalue.two ha hb hsep.2.1 hsep.2.2 hv
    exact ⟨⟨rfl, by rintro _ _ ⟨⟩⟩, hops⟩
  | sub hl hr ha hb =>
    rw [LoweredExpr.HashesSeparate] at hsep
    rw [LoweredExpr.realValue, hl, hr] at hv
    obtain ⟨rfl, hops⟩ := hvalue.two ha hb hsep.2.1 hsep.2.2 hv
    exact ⟨⟨rfl, by rintro _ _ ⟨⟩⟩, hops⟩
  | mul hl hr ha hb =>
    rw [LoweredExpr.HashesSeparate] at hsep
    rw [LoweredExpr.realValue, hl, hr] at hv
    obtain ⟨rfl, hops⟩ := hvalue.two ha hb hsep.2.1 hsep.2.2 hv
    exact ⟨⟨rfl, by rintro _ _ ⟨⟩⟩, hops⟩
  | div hl hr ha hb =>
    rw [LoweredExpr.HashesSeparate] at hsep
    rw [LoweredExpr.realValue, hl, hr] at hv
    obtain ⟨hv, hops⟩ := hvalue.two_bind ha hb hsep.2.1 hsep.2.2 hv
    split at hv
    · cases hv
    · next hne =>
      obtain rfl := Option.some.inj hv
      refine ⟨⟨div_mul_cancel₀ _ hne, ?_⟩, hops⟩
      rintro _ _ ⟨⟩
      exact hne
  | @square info l r a hl hr hhash ha =>
    rw [LoweredExpr.HashesSeparate] at hsep
    rw [LoweredExpr.realValue, hl, hr] at hv
    -- Equal hashes make the factors one expression, which has one value.
    obtain rfl : l = r := hsep.1 rfl hhash
    obtain ⟨rfl, hops⟩ := hvalue.two ha ha hsep.2.1 hsep.2.1 hv
    refine ⟨⟨(pow_two _).symm, by rintro _ _ ⟨⟩⟩, fun j hj => hops j ?_⟩
    exact List.mem_cons_of_mem _ hj
  | power hl hr hfixed hn ha =>
    rw [LoweredExpr.HashesSeparate] at hsep
    rw [LoweredExpr.realValue, hl, hr] at hv
    obtain ⟨x, hx, hv⟩ := Option.bind_eq_some_iff.1 hv
    obtain ⟨w, hw, hv⟩ := Option.bind_eq_some_iff.1 hv
    obtain rfl : w = _ := eq_of_integerExponent hagree hfixed hn hw
    rw [Nat.floor_natCast, if_pos rfl] at hv
    obtain rfl := Option.some.inj hv
    obtain ⟨hpow, hops⟩ := hvalue.one (f := fun x => x ^ _) ha hsep.2.1 (by rw [hx]; rfl)
    exact ⟨⟨hpow, by rintro _ _ ⟨⟩⟩, hops⟩
  | neg hx ha =>
    rw [LoweredExpr.HashesSeparate] at hsep
    rw [LoweredExpr.realValue, hx] at hv
    obtain ⟨rfl, hops⟩ := hvalue.one ha hsep hv
    exact ⟨⟨rfl, by rintro _ _ ⟨⟩⟩, hops⟩
  | sqrt hx ha =>
    rw [LoweredExpr.HashesSeparate, LoweredExpr.HashesSeparateAll] at hsep
    rw [realValue_one hx] at hv
    obtain ⟨x, hx, hv⟩ := Option.bind_eq_some_iff.1 hv
    split at hv
    · next hle =>
      obtain rfl := Option.some.inj hv
      obtain ⟨hsqrt, hops⟩ := hvalue.one (f := Real.sqrt) ha hsep.1 (by rw [hx]; rfl)
      rw [← hvalue _ _ _ ha hx] at hle
      exact ⟨⟨⟨hle, hsqrt⟩, by rintro _ _ ⟨⟩⟩, hops⟩
    · cases hv
  | abs hx ha =>
    rw [LoweredExpr.HashesSeparate, LoweredExpr.HashesSeparateAll] at hsep
    rw [realValue_one hx] at hv
    obtain ⟨rfl, hops⟩ := hvalue.one ha hsep.1 hv
    exact ⟨⟨rfl, by rintro _ _ ⟨⟩⟩, hops⟩
  | min hx hy ha hb =>
    simp only [LoweredExpr.HashesSeparate, LoweredExpr.HashesSeparateAll] at hsep
    rw [realValue_two hx hy] at hv
    obtain ⟨rfl, hops⟩ := hvalue.two ha hb hsep.1 hsep.2.1 hv
    exact ⟨⟨rfl, by rintro _ _ ⟨⟩⟩, hops⟩
  | max hx hy ha hb =>
    simp only [LoweredExpr.HashesSeparate, LoweredExpr.HashesSeparateAll] at hsep
    rw [realValue_two hx hy] at hv
    obtain ⟨rfl, hops⟩ := hvalue.two ha hb hsep.1 hsep.2.1 hv
    exact ⟨⟨rfl, by rintro _ _ ⟨⟩⟩, hops⟩
  | @clamp info x lo hi a b hx hlo hhi ha hb =>
    simp only [LoweredExpr.HashesSeparate, LoweredExpr.HashesSeparateAll] at hsep
    simp only [LoweredExpr.realValue, List.all_cons, hx, hlo, hhi] at hv
    obtain ⟨vx, hvx, hv⟩ := Option.bind_eq_some_iff.1 hv
    obtain ⟨vlo, hvlo, hv⟩ := Option.bind_eq_some_iff.1 hv
    obtain ⟨vhi, hvhi, hv⟩ := Option.bind_eq_some_iff.1 hv
    split at hv
    · obtain rfl := Option.some.inj hv
      -- The node of the lower bound stands for the maximum.
      have hmax : (LoweredExpr.functionCall info "max" [x, lo]).realValue m =
          some (Max.max vx vlo) := by
        rw [realValue_two hx hlo, Meaning.builtin, hvx, hvlo]
        rfl
      have hsepmax : (LoweredExpr.functionCall info "max" [x, lo]).HashesSeparate := by
        simp only [LoweredExpr.HashesSeparate, LoweredExpr.HashesSeparateAll]
        exact ⟨hsep.1, hsep.2.1, trivial⟩
      obtain ⟨hmin, hops⟩ := hvalue.two (f := fun x y => Min.min x y) ha hb hsepmax hsep.2.2.1
        (by rw [hmax, hvhi]; rfl)
      exact ⟨⟨hmin, by rintro _ _ ⟨⟩⟩, hops⟩
    · cases hv
  | @hull info condition t f a b ht hf ha hb =>
    simp only [LoweredExpr.HashesSeparate] at hsep
    rw [LoweredExpr.realValue, ht, hf] at hv
    obtain ⟨taken, htaken, hv⟩ := Option.bind_eq_some_iff.1 hv
    simp only [LoweredExpr.taken, htaken, Option.getD_some]
    cases taken with
    | true =>
      obtain ⟨hid, hops⟩ := hvalue.one (f := fun x => x) ha hsep.2.1 (Option.map_id'.trans hv)
      exact ⟨⟨hid, by rintro _ _ ⟨⟩⟩, hops⟩
    | false =>
      obtain ⟨hid, hops⟩ := hvalue.one (f := fun x => x) hb hsep.2.2 (Option.map_id'.trans hv)
      exact ⟨⟨hid, by rintro _ _ ⟨⟩⟩, hops⟩

/-- The expression that a node stands for. -/
def originOf (built : Built E H O) (i : ℕ) : Option (LoweredExpr H O) := built[i]?.map Prod.fst

omit [LawfulEndpoint E] [NaturalReader E] in
theorem originOf_eq_some {built : Built E H O} {i : ℕ} {e : LoweredExpr H O} :
    originOf built i = some e ↔ Origin built i e := by
  constructor
  · intro h
    obtain ⟨⟨_, node⟩, hget, rfl⟩ := Option.map_eq_some_iff.1 h
    exact ⟨node, hget⟩
  · rintro ⟨node, hget⟩
    rw [originOf, hget]
    rfl

/-- Every node has the value of the expression it stands for. -/
noncomputable def evaluation (m : Meaning H O) (built : Built E H O) : Evaluation where
  value i := ((originOf built i).bind fun e => e.realValue m).getD 0
  takesThen i := ((originOf built i).map fun e => e.taken m).getD false

omit [LawfulEndpoint E] [NaturalReader E] in
theorem valuesMeant_evaluation (built : Built E H O) :
    ValuesMeant m built (evaluation m built).value := by
  intro i e v hi hv
  simp [evaluation, originOf_eq_some.2 hi, hv]

omit [LawfulEndpoint E] [NaturalReader E] in
theorem evaluation_takesThen {built : Built E H O} {i : ℕ} {e : LoweredExpr H O}
    (hi : Origin built i e) : (evaluation m built).takesThen i = e.taken m := by
  simp [evaluation, originOf_eq_some.2 hi]

/-- Every node below a root that has a value evaluates. -/
theorem yieldsAt_evaluation [LawfulNaturalReader E] (hagree : c.Agrees m p)
    {built : Built E H O} (hcomp : ∀ e node, (e, node) ∈ built → Computes c built e node)
    {root : ℕ} {e : LoweredExpr H O} (hroot : Origin built root e) (hsep : e.HashesSeparate)
    {v : ℝ} (hv : e.realValue m = some v) :
    YieldsAt (Built.nodes built) p (evaluation m built) root v := by
  have hstep (i : ℕ) (node : Node E) (hnode : (Built.nodes built)[i]? = some node)
      (hdef : OperandsDefined m built [i]) :
      node.Evaluates p (evaluation m built).value ((evaluation m built).takesThen i)
          ((evaluation m built).value i) ∧
        OperandsDefined m built (node.evaluatedOperands ((evaluation m built).takesThen i)) := by
    obtain ⟨e, hi, hsep, v, hv⟩ := hdef i (by simp)
    obtain ⟨⟨e', node'⟩, hget, rfl⟩ : ∃ b, built[i]? = some b ∧ b.2 = node := by
      rwa [Built.nodes, List.getElem?_map, Option.map_eq_some_iff] at hnode
    obtain rfl := hi.unique ⟨node', hget⟩
    rw [evaluation_takesThen hi, valuesMeant_evaluation built i e v hi hv]
    exact (hcomp e node' (List.mem_of_getElem? hget)).evaluates hagree hsep hv
      (valuesMeant_evaluation built)
  refine ⟨valuesMeant_evaluation built root e v hroot hv, ?_⟩
  -- What an evaluation visits has a value, from the root down.
  have hdef (i : ℕ) (hi : Reaches (Built.nodes built) (evaluation m built) root i) :
      OperandsDefined m built [i] := by
    induction hi with
    | root =>
      intro j hj
      obtain rfl := List.mem_singleton.1 hj
      exact ⟨e, hroot, hsep, v, hv⟩
    | operand _ hnode hj ih =>
      intro j hj'
      obtain rfl := List.mem_singleton.1 hj'
      exact (hstep _ _ hnode ih).2 j hj
  intro i node hnode hi
  exact (hstep i node hnode (hdef i hi)).1

omit [LawfulEndpoint E] in
theorem takesBranches_evaluation {built : Built E H O}
    (hcomp : ∀ e node, (e, node) ∈ built → Computes c built e node) :
    TakesBranches m (Built.nodes built) (originOf built) (evaluation m built) := by
  intro i a b hnode
  obtain ⟨⟨e, node⟩, hget, hhull⟩ : ∃ b', built[i]? = some b' ∧ b'.2 = .hull a b := by
    rwa [Built.nodes, List.getElem?_map, Option.map_eq_some_iff] at hnode
  subst hhull
  have hi : Origin built i e := ⟨_, hget⟩
  have hcomputes := hcomp e _ (List.mem_of_getElem? hget)
  cases hcomputes with
  | @hull info condition t f a b _ _ ha hb =>
    refine ⟨info, condition, t, f, originOf_eq_some.2 hi, originOf_eq_some.2 ha,
      originOf_eq_some.2 hb, ?_⟩
    intro taken htaken
    rw [evaluation_takesThen hi, LoweredExpr.taken, htaken]
    rfl

omit [LawfulEndpoint E] in
/-- Every node but the pending ones is read once. -/
theorem Extension.count_operands {built : Built E H O} {pending : List ℕ}
    (h : Extension c [] built pending) {j : ℕ} (hj : j < built.length) :
    ((Built.nodes built).flatMap Node.operands).count j = if j ∈ pending then 0 else 1 := by
  have hcount := h.once.count_eq j
  rw [List.count_append, List.length_nil, List.count_eq_one_of_mem (List.nodup_range' ..)
    (by rw [List.mem_range'_1]; omega)] at hcount
  split
  · next hmem =>
    have hpos := List.count_pos_iff.2 hmem
    omega
  · next hmem =>
    rw [List.count_eq_zero_of_not_mem hmem] at hcount
    exact hcount

end

end TreeBuilder

namespace Relation

open TreeBuilder

variable [Endpoint E] [LawfulEndpoint E] [NaturalReader E] [LawfulNaturalReader E] [DecidableEq H]

/-- Lowering two expressions of whose factors equal hashes mean equal expressions: operands
come before the node that reads them, every node but the two sides is read once, every node
computes the expression it stands for from those its operands stand for, the sides standing for
the two expressions, and at every point where an expression has a value its node evaluates to
it. -/
theorem lowerSides_faithful (c : OperandClassifier E H O) (left right : LoweredExpr H O)
    (comparison : Comparison) (hleft : left.HashesSeparate) (hright : right.HashesSeparate) :
    let r := lowerSides c left right comparison
    (∀ i : Fin r.nodes.length, ∀ j ∈ (r.nodes.get i).operands, j < i) ∧
    (∀ j < r.nodes.length,
      (r.nodes.flatMap Node.operands).count j = if j = r.lhs ∨ j = r.rhs then 0 else 1) ∧
    (∃ built : Built E H O, r.nodes = Built.nodes built ∧
      (∀ e node, (e, node) ∈ built → Computes c built e node) ∧
      originOf built r.lhs = some left ∧ originOf built r.rhs = some right ∧
      ∀ (m : Meaning H O) (p : ℕ → ℝ), c.Agrees m p → ∃ ev : Evaluation,
        TakesBranches m r.nodes (originOf built) ev ∧
        (∀ i e v, originOf built i = some e → e.HashesSeparate → e.realValue m = some v →
          YieldsAt r.nodes p ev i v) ∧
        (∀ v, left.realValue m = some v → YieldsAt r.nodes p ev r.lhs v) ∧
        (∀ v, right.realValue m = some v → YieldsAt r.nodes p ev r.rhs v)) ∧
    (∀ info op strict, op.comparison = some (comparison, strict) →
      left.isNumeric = true → right.isNumeric = true →
      (comparison = .equal →
        left.info.resultType.dimensionOf = right.info.resultType.dimensionOf) →
      compile (.binOp info op left right) c = some ⟨r, strict⟩) := by
  intro r
  obtain ⟨built, hnodes, hext, hl, hr⟩ := exists_node_node (c := c) left right
  have hnodes : r.nodes = Built.nodes built := hnodes
  have hcomp := hext.computes
  rw [List.nil_append] at hcomp
  refine ⟨r.operands_lt, ?_, ⟨built, hnodes, hcomp, ?_, ?_, ?_⟩, ?_⟩
  · intro j hj
    rw [hnodes, List.length_map] at hj
    rw [hnodes, hext.count_operands hj]
    simp only [List.mem_cons, List.not_mem_nil, or_false]
    rfl
  · exact originOf_eq_some.2 hl
  · exact originOf_eq_some.2 hr
  · intro m p hagree
    rw [hnodes]
    refine ⟨evaluation m built, takesBranches_evaluation hcomp, ?_, ?_, ?_⟩
    · intro i e v hi hsep hv
      exact yieldsAt_evaluation hagree hcomp (originOf_eq_some.1 hi) hsep hv
    · intro v hv
      exact yieldsAt_evaluation hagree hcomp hl hleft hv
    · intro v hv
      exact yieldsAt_evaluation hagree hcomp hr hright hv
  · intro info op strict hop hnl hnr hdim
    have hdim : ¬(comparison = .equal ∧
        left.info.resultType.dimensionOf ≠ right.info.resultType.dimensionOf) := by
      rintro ⟨heq, hne⟩
      exact hne (hdim heq)
    simp only [compile, hop, hnl, hnr, if_neg hdim]
    rfl

end Relation

/-! ## Exact endpoints -/

/-- The natural number that a rational number is. -/
def ExtendedRat.asNat : ExtendedRat → Option ℕ
  | finite q => if q = (q.num.toNat : ℚ) then some q.num.toNat else none
  | _ => none

instance : NaturalReader ExtendedRat where
  asNat := ExtendedRat.asNat

instance : LawfulNaturalReader ExtendedRat where
  asNat_eq_some := by
    intro v n
    cases v with
    | negInf => exact iff_of_false (by rintro ⟨⟩) (EReal.coe_ne_bot _).symm
    | inf => exact iff_of_false (by rintro ⟨⟩) (EReal.coe_ne_top _).symm
    | finite q =>
      have hval : val (ExtendedRat.finite q) = ((n : ℝ) : EReal) ↔ q = (n : ℚ) := by
        rw [← Rat.cast_inj (α := ℝ), Rat.cast_natCast]
        exact EReal.coe_eq_coe_iff
      rw [hval]
      change ExtendedRat.asNat (.finite q) = some n ↔ _
      rw [ExtendedRat.asNat]
      split
      · next hq =>
        constructor
        · intro h
          obtain rfl := Option.some.inj h
          exact hq
        · rintro rfl
          simp
      · next hq =>
        refine iff_of_false (by rintro ⟨⟩) ?_
        rintro rfl
        exact hq (by simp)

section
open LoweredExpr

/-- A classifier of one variable whose literals are evaluated. -/
def literalClassifier : OperandClassifier ExtendedRat ℕ (Option ℚ) where
  classify _ := .variable 0
  evaluate
    | .other _ (some q) _ => some (.finite q)
    | _ => none

/-- Every cell is two, and literals mean themselves. -/
noncomputable def literalMeaning : Meaning ℕ (Option ℚ) where
  cell _ := some 2
  truth _ := none
  other
    | .other _ (some q) _ => some (q : ℝ)
    | _ => none

theorem literalClassifier_agrees : literalClassifier.Agrees literalMeaning fun _ => 2 where
  classify_eq := by
    rintro id k v _ ⟨⟩
    rfl
  evaluate_eq := by
    intro e x v _ hx hv
    unfold literalClassifier at hx
    dsimp only at hx
    split at hx
    · obtain rfl := Option.some.inj hx
      rw [realValue] at hv
      obtain rfl := Option.some.inj hv
      rfl
    · cases hx

/-- `x * x + 3`. -/
def squareSum : LoweredExpr ℕ (Option ℚ) :=
  .binOp ⟨.int, 4⟩ .add
    (.binOp ⟨.int, 2⟩ .mul (.valueRef ⟨.int, 1⟩ ⟨"Box", "x"⟩) (.valueRef ⟨.int, 1⟩ ⟨"Box", "x"⟩))
    (.other ⟨.int, 3⟩ (some 3) [])

/-- The sum is seven where the variable is two, with a square in its tree. -/
theorem lowerSides_faithful_squareSum :
    ∃ ev : Evaluation, YieldsAt (Relation.lowerSides literalClassifier squareSum
      (.other ⟨.int, 5⟩ (some 7) []) .equal).nodes (fun _ => 2) ev 3 7 := by
  have hsep : squareSum.HashesSeparate := by
    simp [squareSum, HashesSeparate]
  have hright : (LoweredExpr.other ⟨.int, 5⟩ (some 7) [] : LoweredExpr ℕ (Option ℚ)).HashesSeparate :=
    by simp [HashesSeparate]
  obtain ⟨_, _, ⟨_, _, _, _, _, h⟩, _⟩ :=
    Relation.lowerSides_faithful literalClassifier squareSum _ .equal hsep hright
  obtain ⟨ev, _, _, hyields, _⟩ := h literalMeaning _ literalClassifier_agrees
  refine ⟨ev, hyields 7 ?_⟩
  norm_num [squareSum, realValue, isNumeric, info, Ty.isNumeric, Meaning.arithmetic,
    literalMeaning]

end

end Reify
