import Reify.Constraints.Lowering
import Mathlib.Data.List.Perm.Basic

/-!
# What lowering builds

Every node is kept with the expression it stands for.  Lowering an expression appends nodes
to those built before; each of them computes its expression from the expressions of the nodes
it reads, and all but those still pending are read once, by a later node.

## Main definitions

* `TreeBuilder.Computes`: a node computes an expression from those of its operands.
* `TreeBuilder.Extension`: the nodes appended, and the ones that are pending.
* `TreeBuilder.Lowers`: the two results of lowering.
* `Relation.compile`.

## Main results

* `TreeBuilder.lowers_lower`: lowering appends such nodes.
* `Relation.compile_eq_some`: the nodes of a compiled comparison.
-/

namespace Reify

open Foundation

variable {E H O : Type}

/-! ## Hashes -/

mutual

/-- Where two factors have one content hash, they are one expression. -/
def LoweredExpr.HashesSeparate : LoweredExpr H O → Prop
  | .valueRef _ _ | .other _ _ _ => True
  | .binOp _ op left right =>
    (op = .mul → left.contentHash = right.contentHash → left = right) ∧
      left.HashesSeparate ∧ right.HashesSeparate
  | .unOp _ _ operand => operand.HashesSeparate
  | .functionCall _ _ args => HashesSeparateAll args
  | .conditional _ condition thenBranch elseBranch =>
    condition.HashesSeparate ∧ thenBranch.HashesSeparate ∧ elseBranch.HashesSeparate

def LoweredExpr.HashesSeparateAll : List (LoweredExpr H O) → Prop
  | [] => True
  | arg :: args => arg.HashesSeparate ∧ HashesSeparateAll args

end

namespace TreeBuilder

/-! ## Constant expressions -/

section
variable {c : OperandClassifier E H O}

variable (c) in
/-- Constant, as far as equal hashes can be trusted. -/
def Constant (e : LoweredExpr H O) : Prop := e.HashesSeparate → isFixed c e = true

theorem Constant.binOp {info : ExprInfo H} {op : BinOp} {l r : LoweredExpr H O}
    (hl : Constant c l) (hr : Constant c r) : Constant c (.binOp info op l r) := by
  intro hsep
  simp only [LoweredExpr.HashesSeparate] at hsep
  simp only [isFixed, LoweredExpr.valueRefs, List.all_append, Bool.and_eq_true]
  exact ⟨hl hsep.2.1, hr hsep.2.2⟩

theorem Constant.square {info : ExprInfo H} {l r : LoweredExpr H O}
    (hhash : l.contentHash = r.contentHash) (hl : Constant c l) :
    Constant c (.binOp info .mul l r) := by
  intro hsep
  have heq : l = r := by
    rw [LoweredExpr.HashesSeparate] at hsep
    exact hsep.1 rfl hhash
  exact Constant.binOp hl (heq ▸ hl) hsep

theorem Constant.unOp {info : ExprInfo H} {op : UnOp} {x : LoweredExpr H O}
    (hx : Constant c x) : Constant c (.unOp info op x) := by
  intro hsep
  simp only [LoweredExpr.HashesSeparate] at hsep
  exact hx hsep

theorem Constant.functionCall {info : ExprInfo H} {name : String} {args : List (LoweredExpr H O)}
    (hargs : ∀ arg ∈ args, Constant c arg) : Constant c (.functionCall info name args) := by
  intro hsep
  simp only [LoweredExpr.HashesSeparate] at hsep
  simp only [isFixed, LoweredExpr.valueRefs]
  induction args with
  | nil => rfl
  | cons arg args ih =>
    simp only [LoweredExpr.HashesSeparateAll] at hsep
    simp only [LoweredExpr.valueRefsAll, List.all_append, Bool.and_eq_true]
    exact ⟨hargs arg (by simp) hsep.1, ih (fun a ha => hargs a (by simp [ha])) hsep.2⟩

theorem Constant.conditional {info : ExprInfo H} {condition t f : LoweredExpr H O}
    (hcond : isFixed c condition = true) (ht : Constant c t) (hf : Constant c f) :
    Constant c (.conditional info condition t f) := by
  intro hsep
  simp only [LoweredExpr.HashesSeparate] at hsep
  simp only [isFixed, LoweredExpr.valueRefs, List.all_append, Bool.and_eq_true]
  exact ⟨hcond, ht hsep.2.1, hf hsep.2.2⟩

end

/-! ## Nodes and their expressions -/

variable [Endpoint E]

/-- The nodes built so far, each with the expression it stands for. -/
abbrev Built (E H O : Type) [Endpoint E] := List (LoweredExpr H O × Node E)

/-- The nodes without their expressions. -/
abbrev Built.nodes (built : Built E H O) : List (Node E) := built.map Prod.snd

/-- The node at the index stands for the expression. -/
def Origin (built : Built E H O) (i : ℕ) (e : LoweredExpr H O) : Prop :=
  ∃ node, built[i]? = some (e, node)

theorem Origin.append {built : Built E H O} {i : ℕ} {e : LoweredExpr H O}
    (h : Origin built i e) (added : Built E H O) : Origin (built ++ added) i e := by
  obtain ⟨node, hnode⟩ := h
  exact ⟨node, by rw [List.getElem?_append_left (List.getElem?_eq_some_iff.1 hnode).1, hnode]⟩

theorem Origin.unique {built : Built E H O} {i : ℕ} {e e' : LoweredExpr H O}
    (h : Origin built i e) (h' : Origin built i e') : e = e' := by
  obtain ⟨node, hnode⟩ := h
  obtain ⟨node', hnode'⟩ := h'
  rw [hnode] at hnode'
  exact congrArg Prod.fst (Option.some.inj hnode')

theorem Origin.last (built : Built E H O) (e : LoweredExpr H O) (node : Node E) :
    Origin (built ++ [(e, node)]) built.length e :=
  ⟨node, by simp⟩

section
variable (c : OperandClassifier E H O) [NaturalReader E]

/-- The node computes the expression from the expressions of the nodes it reads. -/
inductive Computes (built : Built E H O) : LoweredExpr H O → Node E → Prop where
  | const {e x point} : Constant c e → c.evaluate e = some x → Interval.point x = some point →
      Computes built e (.const point)
  | opaqueLeaf {e} : Computes built e .opaqueLeaf
  | var {info id k} : c.classify id = .variable k → Computes built (.valueRef info id) (.var k)
  | add {info l r a b} : l.isNumeric = true → r.isNumeric = true →
      Origin built a l → Origin built b r → Computes built (.binOp info .add l r) (.add a b)
  | sub {info l r a b} : l.isNumeric = true → r.isNumeric = true →
      Origin built a l → Origin built b r → Computes built (.binOp info .sub l r) (.sub a b)
  | mul {info l r a b} : l.isNumeric = true → r.isNumeric = true →
      Origin built a l → Origin built b r → Computes built (.binOp info .mul l r) (.mul a b)
  | div {info l r a b} : l.isNumeric = true → r.isNumeric = true →
      Origin built a l → Origin built b r → Computes built (.binOp info .div l r) (.div a b)
  | square {info l r a} : l.isNumeric = true → r.isNumeric = true →
      l.contentHash = r.contentHash → Origin built a l →
      Computes built (.binOp info .mul l r) (.powi a 2)
  | power {info l r a n} : l.isNumeric = true → r.isNumeric = true → isFixed c r = true →
      integerExponent c r = some n → Origin built a l →
      Computes built (.binOp info .pow l r) (.powi a n)
  | neg {info x a} : x.isNumeric = true → Origin built a x →
      Computes built (.unOp info .neg x) (.neg a)
  | sqrt {info x a} : x.isNumeric = true → Origin built a x →
      Computes built (.functionCall info "sqrt" [x]) (.sqrt a)
  | abs {info x a} : x.isNumeric = true → Origin built a x →
      Computes built (.functionCall info "abs" [x]) (.abs a)
  | min {info x y a b} : x.isNumeric = true → y.isNumeric = true →
      Origin built a x → Origin built b y →
      Computes built (.functionCall info "min" [x, y]) (.min a b)
  | max {info x y a b} : x.isNumeric = true → y.isNumeric = true →
      Origin built a x → Origin built b y →
      Computes built (.functionCall info "max" [x, y]) (.max a b)
  -- The lower bound of a clamp is applied by a node of its own.
  | clamp {info x lo hi a b} :
      x.isNumeric = true → lo.isNumeric = true → hi.isNumeric = true →
      Origin built a (.functionCall info "max" [x, lo]) → Origin built b hi →
      Computes built (.functionCall info "clamp" [x, lo, hi]) (.min a b)
  | hull {info condition t f a b} : t.isNumeric = true → f.isNumeric = true →
      Origin built a t → Origin built b f →
      Computes built (.conditional info condition t f) (.hull a b)

variable {c}

theorem Computes.append {built : Built E H O} {e : LoweredExpr H O} {node : Node E}
    (h : Computes c built e node) (added : Built E H O) : Computes c (built ++ added) e node := by
  cases h with
  | const h hx hp => exact .const h hx hp
  | opaqueLeaf => exact .opaqueLeaf
  | var h => exact .var h
  | add hl hr ha hb => exact .add hl hr (ha.append added) (hb.append added)
  | sub hl hr ha hb => exact .sub hl hr (ha.append added) (hb.append added)
  | mul hl hr ha hb => exact .mul hl hr (ha.append added) (hb.append added)
  | div hl hr ha hb => exact .div hl hr (ha.append added) (hb.append added)
  | square hl hr h ha => exact .square hl hr h (ha.append added)
  | power hl hr h hn ha => exact .power hl hr h hn (ha.append added)
  | neg h ha => exact .neg h (ha.append added)
  | sqrt h ha => exact .sqrt h (ha.append added)
  | abs h ha => exact .abs h (ha.append added)
  | min hx hy ha hb => exact .min hx hy (ha.append added) (hb.append added)
  | max hx hy ha hb => exact .max hx hy (ha.append added) (hb.append added)
  | clamp hx hlo hhi ha hb => exact .clamp hx hlo hhi (ha.append added) (hb.append added)
  | hull ht hf ha hb => exact .hull ht hf (ha.append added) (hb.append added)

/-! ## Extensions -/

variable (c) in
/-- Nodes appended to those built before: each computes its expression from earlier nodes, and
each but the pending ones is read once among them. -/
structure Extension (built added : Built E H O) (pending : List ℕ) : Prop where
  computes : ∀ e node, (e, node) ∈ added → Computes c (built ++ added) e node
  before : ∀ (i : ℕ) e node, added[i]? = some (e, node) →
    ∀ j ∈ node.operands, j < built.length + i
  once : ((Built.nodes added).flatMap Node.operands ++ pending).Perm
    (List.range' built.length added.length)

theorem getElem?_append_cases {α : Type} {l l' : List α} {i : ℕ} {a : α}
    (h : (l ++ l')[i]? = some a) : l[i]? = some a ∨ l.length ≤ i ∧ l'[i - l.length]? = some a := by
  rw [List.getElem?_append] at h
  split at h
  · exact .inl h
  · exact .inr ⟨by omega, h⟩

theorem Extension.nil (built : Built E H O) : Extension c built [] [] where
  computes := by simp
  before := by simp
  once := by simp

theorem Extension.pending_lt {built added : Built E H O} {pending : List ℕ}
    (h : Extension c built added pending) {j : ℕ} (hj : j ∈ pending) :
    j < built.length + added.length := by
  have hmem := h.once.subset (List.mem_append_right _ hj)
  rw [List.mem_range'_1] at hmem
  exact hmem.2

/-- Extensions follow each other. -/
theorem Extension.trans {built added added' : Built E H O} {pending pending' : List ℕ}
    (h : Extension c built added pending) (h' : Extension c (built ++ added) added' pending') :
    Extension c built (added ++ added') (pending ++ pending') := by
  constructor
  case computes =>
    intro e node hmem
    rw [← List.append_assoc]
    rcases List.mem_append.1 hmem with hmem | hmem
    · exact (h.computes e node hmem).append added'
    · exact h'.computes e node hmem
  case before =>
    intro i e node hi j hj
    rcases getElem?_append_cases hi with hi | ⟨hle, hi⟩
    · exact h.before i e node hi j hj
    · have hlt := h'.before _ e node hi j hj
      rw [List.length_append] at hlt
      omega
  case once =>
    have hperm := h.once.append h'.once
    rw [List.length_append, ← List.range'_append_1] at *
    refine List.Perm.trans ?_ hperm
    simp only [Built.nodes, List.map_append, List.flatMap_append, List.append_assoc]
    refine List.Perm.append_left _ ?_
    rw [← List.append_assoc, ← List.append_assoc]
    exact List.Perm.append_right _ List.perm_append_comm

/-- A node whose operands are pending is pushed, and is pending itself. -/
theorem Extension.push {built added : Built E H O} {node : Node E} {pending : List ℕ}
    (h : Extension c built added (node.operands ++ pending)) {e : LoweredExpr H O}
    (he : Computes c (built ++ added) e node) :
    Extension c built (added ++ [(e, node)]) ((built ++ added).length :: pending) := by
  constructor
  case computes =>
    intro e' node' hmem
    rw [← List.append_assoc]
    rcases List.mem_append.1 hmem with hmem | hmem
    · exact (h.computes e' node' hmem).append _
    · obtain ⟨rfl, rfl⟩ : e' = e ∧ node' = node := by simpa using hmem
      exact he.append _
  case before =>
    intro i e' node' hi j hj
    rcases getElem?_append_cases hi with hi | ⟨hle, hi⟩
    · exact h.before i e' node' hi j hj
    · obtain ⟨rfl, rfl⟩ : e' = e ∧ node' = node := by simpa using List.mem_of_getElem? hi
      have hlt := h.pending_lt (List.mem_append_left _ hj)
      omega
  case once =>
    have hperm := h.once.append_right [built.length + added.length]
    have hlen : (added ++ [(e, node)]).length = added.length + 1 := List.length_append
    rw [hlen, List.range'_1_concat]
    refine List.Perm.trans ?_ hperm
    simp only [Built.nodes, List.map_append, List.flatMap_append, List.append_assoc,
      List.map_cons, List.map_nil, List.flatMap_cons, List.flatMap_nil, List.append_nil]
    refine List.Perm.append_left _ (List.Perm.append_left _ ?_)
    rw [List.length_append]
    exact (List.perm_append_singleton _ _).symm.trans (by simp)

theorem Extension.perm {built added : Built E H O} {pending pending' : List ℕ}
    (h : Extension c built added pending) (hp : pending'.Perm pending) :
    Extension c built added pending' where
  computes := h.computes
  before := h.before
  once := (hp.append_left _).trans h.once

/-! ## The results of lowering -/

/-- The nodes that a lowered expression reads. -/
def pendingOf : Lowered E → List ℕ
  | .fixed => []
  | .computed node => node.operands

variable (c) in
/-- A lowered expression is constant, or its node computes it. -/
def Matches (built : Built E H O) (e : LoweredExpr H O) : Lowered E → Prop
  | .fixed => Constant c e
  | .computed node => Computes c built e node

theorem Matches.append {built : Built E H O} {e : LoweredExpr H O} {lowered : Lowered E}
    (h : Matches c built e lowered) (added : Built E H O) :
    Matches c (built ++ added) e lowered := by
  cases lowered with
  | fixed => exact h
  | computed node => exact Computes.append h added

theorem Matches.computes_nodeOf {built : Built E H O} {e : LoweredExpr H O} {lowered : Lowered E}
    (h : Matches c built e lowered) : Computes c built e (nodeOf c e lowered) := by
  cases lowered with
  | computed node => exact h
  | fixed =>
    rw [nodeOf]
    split
    · next point hpoint =>
      obtain ⟨x, hx, hpoint⟩ := Option.bind_eq_some_iff.1 hpoint
      exact .const h hx hpoint
    · exact .opaqueLeaf

omit [NaturalReader E] in
theorem operands_nodeOf (e : LoweredExpr H O) (lowered : Lowered E) :
    (nodeOf c e lowered).operands = pendingOf lowered := by
  cases lowered with
  | computed node => rfl
  | fixed =>
    rw [nodeOf]
    split
    · rfl
    · rfl

variable (c) in
/-- A constant expression appends nothing; any other appends what its node reads. -/
inductive Lowers (built : Built E H O) (e : LoweredExpr H O) :
    List (Node E) × Lowered E → Prop where
  | fixed : Constant c e → Lowers built e (Built.nodes built, .fixed)
  | computed {added node} : Extension c built added node.operands →
      Computes c (built ++ added) e node →
      Lowers built e (Built.nodes (built ++ added), .computed node)

/-- A node that reads nothing. -/
theorem Lowers.leaf {built : Built E H O} {e : LoweredExpr H O} {node : Node E}
    (hops : node.operands = []) (h : Computes c built e node) :
    Lowers c built e (Built.nodes built, .computed node) := by
  have hlowers : Lowers c built e (Built.nodes (built ++ []), .computed node) := by
    refine .computed ?_ ?_
    · rw [hops]
      exact .nil built
    · rwa [List.append_nil]
  rwa [List.append_nil] at hlowers

theorem Lowers.exists_extension {built : Built E H O} {e : LoweredExpr H O}
    {r : List (Node E) × Lowered E} (h : Lowers c built e r) :
    ∃ added, r.1 = Built.nodes (built ++ added) ∧ Extension c built added (pendingOf r.2) ∧
      Matches c (built ++ added) e r.2 ∧ (r.2.isFixed = true → added = []) := by
  cases h with
  | fixed hconst => exact ⟨[], by rw [List.append_nil], .nil built, hconst, fun _ => rfl⟩
  | computed hext hcomp => exact ⟨_, rfl, hext, hcomp, fun h => by cases h⟩

omit [NaturalReader E] in
theorem place_eq {built added : Built E H O} (e : LoweredExpr H O) (lowered : Lowered E) :
    place c (Built.nodes (built ++ added)) e lowered =
      (Built.nodes (built ++ (added ++ [(e, nodeOf c e lowered)])), (built ++ added).length) := by
  simp [place, push, Built.nodes]

theorem Extension.place {built added : Built E H O} {e : LoweredExpr H O} {lowered : Lowered E}
    {pending : List ℕ} (h : Extension c built added (pendingOf lowered ++ pending))
    (hm : Matches c (built ++ added) e lowered) :
    Extension c built (added ++ [(e, nodeOf c e lowered)]) ((built ++ added).length :: pending) := by
  rw [← operands_nodeOf (c := c) e] at h
  exact h.push hm.computes_nodeOf

/-- The expression's own node is placed after the others. -/
theorem Lowers.exists_place {built : Built E H O} {e : LoweredExpr H O}
    {r : List (Node E) × Lowered E} (h : Lowers c built e r) :
    ∃ added i, place c r.1 e r.2 = (Built.nodes (built ++ added), i) ∧
      Extension c built added [i] ∧ Origin (built ++ added) i e := by
  obtain ⟨added, hnodes, hext, hm, _⟩ := h.exists_extension
  rw [hnodes]
  rw [← List.append_nil (pendingOf r.2)] at hext
  refine ⟨_, _, place_eq e r.2, hext.place hm, ?_⟩
  rw [← List.append_assoc]
  exact Origin.last _ _ _

/-! ## Composed nodes -/

variable (c) in
/-- The operand's own lowering is right wherever it starts. -/
def LowersOperand (operand : Operand E H O) : Prop :=
  ∀ built, Lowers c built operand.1 (operand.2 (Built.nodes built))

theorem exists_lowerAll (operands : List (Operand E H O))
    (h : ∀ operand ∈ operands, LowersOperand c operand) (built : Built E H O) :
    ∃ added lowered,
      lowerAll (Built.nodes built) operands = (Built.nodes (built ++ added), lowered) ∧
      lowered.map Prod.fst = operands.map Prod.fst ∧
      Extension c built added (lowered.flatMap fun l => pendingOf l.2) ∧
      (∀ l ∈ lowered, Matches c (built ++ added) l.1 l.2) ∧
      ((∀ l ∈ lowered, l.2.isFixed = true) → added = []) := by
  induction operands generalizing built with
  | nil => exact ⟨[], [], by rw [List.append_nil]; rfl, rfl, .nil built, by simp, fun _ => rfl⟩
  | cons operand operands ih =>
    obtain ⟨added, hnodes, hext, hm, hnil⟩ := (h operand (by simp) built).exists_extension
    obtain ⟨added', lowered, hrest, hfst, hext', hms, hnil'⟩ :=
      ih (fun o ho => h o (by simp [ho])) (built ++ added)
    refine ⟨added ++ added', (operand.1, (operand.2 (Built.nodes built)).2) :: lowered, ?_, ?_, ?_,
      ?_, ?_⟩
    · simp only [lowerAll, hnodes, hrest, List.append_assoc]
    · rw [List.map_cons, List.map_cons, hfst]
    · exact hext.trans hext'
    · intro l hl
      rw [← List.append_assoc]
      rcases List.mem_cons.1 hl with rfl | hl
      · exact hm.append added'
      · exact hms l hl
    · intro hall
      rw [hnil (hall _ List.mem_cons_self), hnil' fun l hl => hall l (List.mem_cons_of_mem _ hl)]
      rfl

/-- The operands are placed after everything that was lowered before. -/
theorem exists_placeAll (lowered : List (LoweredExpr H O × Lowered E)) {built added : Built E H O}
    {pending : List ℕ}
    (hext : Extension c built added ((lowered.flatMap fun l => pendingOf l.2) ++ pending))
    (hms : ∀ l ∈ lowered, Matches c (built ++ added) l.1 l.2) :
    ∃ more indices, placeAll c (Built.nodes (built ++ added)) lowered =
        (Built.nodes (built ++ (added ++ more)), indices) ∧
      Extension c built (added ++ more) (indices ++ pending) ∧
      List.Forall₂ (Origin (built ++ (added ++ more))) indices (lowered.map Prod.fst) := by
  induction lowered generalizing added pending with
  | nil =>
    refine ⟨[], [], by rw [List.append_nil]; rfl, ?_, .nil⟩
    rw [List.append_nil]
    exact hext
  | cons l lowered ih =>
    obtain ⟨e, low⟩ := l
    rw [List.flatMap_cons, List.append_assoc] at hext
    -- The new index joins what stays pending while the rest is placed.
    have hpush : Extension c built (added ++ [(e, nodeOf c e low)])
        ((lowered.flatMap fun l => pendingOf l.2) ++ (built ++ added).length :: pending) :=
      (hext.place (hms (e, low) List.mem_cons_self)).perm List.perm_middle
    obtain ⟨more, indices, hplace, hext', horigin⟩ := ih hpush fun l hl => by
      rw [← List.append_assoc]
      exact (hms l (List.mem_cons_of_mem _ hl)).append _
    refine ⟨(e, nodeOf c e low) :: more, (built ++ added).length :: indices, ?_, ?_, ?_⟩
    · simp only [placeAll, place_eq, hplace]
      simp
    · rw [List.append_cons]
      exact hext'.perm List.perm_middle.symm
    · rw [List.append_cons]
      refine .cons ?_ horigin
      rw [← List.append_assoc, ← List.append_assoc]
      exact (Origin.last _ e _).append more

variable (c) in
/-- Over operands that are placed, `make` appends what computes the expression. -/
def Makes (e : LoweredExpr H O) (operands : List (LoweredExpr H O))
    (make : List (Node E) → List Nat → List (Node E) × Node E) : Prop :=
  ∀ built added indices, Extension c built added indices →
    List.Forall₂ (Origin (built ++ added)) indices operands →
    Lowers c built e ((make (Built.nodes (built ++ added)) indices).1,
      .computed (make (Built.nodes (built ++ added)) indices).2)

theorem lowers_compose {e : LoweredExpr H O} {operands : List (Operand E H O)}
    {make : List (Node E) → List Nat → List (Node E) × Node E}
    (hops : ∀ operand ∈ operands, LowersOperand c operand)
    (hconst : (∀ operand ∈ operands, Constant c operand.1) → Constant c e)
    (hmake : Makes c e (operands.map Prod.fst) make) (built : Built E H O) :
    Lowers c built e (compose c operands make (Built.nodes built)) := by
  obtain ⟨added, lowered, hlower, hfst, hext, hms, hnil⟩ := exists_lowerAll operands hops built
  simp only [compose, hlower]
  split
  · next hall =>
    -- Every operand is constant, so none of them appended a node.
    have hall : ∀ l ∈ lowered, l.2.isFixed = true := List.all_eq_true.1 hall
    rw [hnil hall, List.append_nil]
    refine .fixed (hconst fun operand hoperand => ?_)
    have hmem : operand.1 ∈ lowered.map Prod.fst := by
      rw [hfst]
      exact List.mem_map_of_mem hoperand
    obtain ⟨⟨e', low⟩, hl, rfl⟩ := List.mem_map.1 hmem
    have hm := hms _ hl
    cases low with
    | fixed => exact hm
    | computed node => cases hall _ hl
  · rw [← List.append_nil (lowered.flatMap _)] at hext
    obtain ⟨more, indices, hplace, hext', horigin⟩ := exists_placeAll lowered hext hms
    rw [hplace]
    rw [List.append_nil] at hext'
    rw [hfst] at horigin
    exact hmake built _ indices hext' horigin

theorem makes_unary {e x : LoweredExpr H O} {f : ℕ → Node E} (hops : ∀ a, (f a).operands = [a])
    (h : ∀ built a, Origin built a x → Computes c built e (f a)) :
    Makes c e [x] (unary f) := by
  rintro built added _ hext (_ | ⟨ha, _ | _⟩)
  rw [← hops] at hext
  exact .computed hext (h _ _ ha)

theorem makes_binary {e x y : LoweredExpr H O} {f : ℕ → ℕ → Node E}
    (hops : ∀ a b, (f a b).operands = [a, b])
    (h : ∀ built a b, Origin built a x → Origin built b y → Computes c built e (f a b)) :
    Makes c e [x, y] (binary f) := by
  rintro built added _ hext (_ | ⟨ha, _ | ⟨hb, _ | _⟩⟩)
  rw [← hops] at hext
  exact .computed hext (h _ _ _ ha hb)

/-- The lower bound is applied first; its node stands for the maximum. -/
theorem makes_clamp {info : ExprInfo H} {x lo hi : LoweredExpr H O} (hx : x.isNumeric = true)
    (hlo : lo.isNumeric = true) (hhi : hi.isNumeric = true) :
    Makes c (.functionCall info "clamp" [x, lo, hi]) [x, lo, hi] clamp := by
  rintro built added _ hext (_ | ⟨ha, _ | ⟨hb, _ | ⟨hd, _ | _⟩⟩⟩)
  rename_i a b d
  have hmax : Computes c (built ++ added) (.functionCall info "max" [x, lo]) (.max a b) :=
    .max hx hlo ha hb
  have hpush : Extension c built (added ++ [(.functionCall info "max" [x, lo], .max a b)])
      ((built ++ added).length :: [d]) :=
    Extension.push hext hmax
  have hmin : Computes c (built ++ (added ++ [(.functionCall info "max" [x, lo], .max a b)]))
      (.functionCall info "clamp" [x, lo, hi]) (.min (built ++ added).length d) := by
    rw [← List.append_assoc]
    exact .clamp hx hlo hhi (Origin.last _ _ _) (hd.append _)
  have hlowers := Lowers.computed hpush hmin
  simpa [clamp, push, Built.nodes] using hlowers

/-! ## Lowering -/

theorem lowers_byRefs (e : LoweredExpr H O) (built : Built E H O) :
    Lowers c built e (Built.nodes built, byRefs c e) := by
  rw [byRefs]
  split
  · next hfixed => exact .fixed fun _ => hfixed
  · exact .leaf rfl .opaqueLeaf

section
variable {info : ExprInfo H} {left right : Operand E H O} (hleft : LowersOperand c left)
  (hright : LowersOperand c right)
include hleft

theorem lowers_power (hnl : left.1.isNumeric = true) (r : LoweredExpr H O)
    (hnr : r.isNumeric = true) (built : Built E H O) :
    Lowers c built (.binOp info .pow left.1 r) (power c left r (Built.nodes built)) := by
  rw [power]
  split
  · next hfixed =>
    have hconst (h : Constant c left.1) : Constant c (.binOp info .pow left.1 r) :=
      .binOp h fun _ => hfixed
    split
    · next n hn =>
      refine lowers_compose (by simpa using hleft) (fun h => hconst (h left (by simp))) ?_ built
      exact makes_unary (fun _ => rfl) fun _ _ ha => .power hnl hnr hfixed hn ha
    · rw [byRefs]
      split
      · next hbase => exact .fixed (hconst fun _ => hbase)
      · exact .leaf rfl .opaqueLeaf
  · exact .leaf rfl .opaqueLeaf

include hright

/-- A node over both operands of a binary operation. -/
theorem lowers_compose_binOp {op : BinOp} {f : ℕ → ℕ → Node E}
    (hops : ∀ a b, (f a b).operands = [a, b])
    (h : ∀ built a b, Origin built a left.1 → Origin built b right.1 →
      Computes c built (.binOp info op left.1 right.1) (f a b)) (built : Built E H O) :
    Lowers c built (.binOp info op left.1 right.1)
      (compose c [left, right] (binary f) (Built.nodes built)) := by
  refine lowers_compose ?_ (fun h => ?_) (makes_binary hops h) built
  · intro operand hmem
    rcases List.mem_pair.1 hmem with rfl | rfl
    · exact hleft
    · exact hright
  · exact .binOp (h left (by simp)) (h right (by simp))

theorem lowers_arithmetic [DecidableEq H] {op : BinOp} (hnl : left.1.isNumeric = true)
    (hnr : right.1.isNumeric = true) (built : Built E H O) :
    Lowers c built (.binOp info op left.1 right.1)
      (arithmetic c (.binOp info op left.1 right.1) op left right (Built.nodes built)) := by
  unfold arithmetic
  split
  case h_1 =>
    exact lowers_compose_binOp hleft hright (fun _ _ => rfl) (fun _ _ _ => .add hnl hnr) built
  case h_2 =>
    exact lowers_compose_binOp hleft hright (fun _ _ => rfl) (fun _ _ _ => .sub hnl hnr) built
  case h_3 =>
    split
    · next hhash =>
      refine lowers_compose (by simpa using hleft) (fun h => .square hhash (h left (by simp))) ?_
        built
      exact makes_unary (fun _ => rfl) fun _ _ ha => .square hnl hnr hhash ha
    · exact lowers_compose_binOp hleft hright (fun _ _ => rfl) (fun _ _ _ => .mul hnl hnr) built
  case h_4 =>
    exact lowers_compose_binOp hleft hright (fun _ _ => rfl) (fun _ _ _ => .div hnl hnr) built
  case h_5 => exact lowers_power hleft hnl right.1 hnr built
  case h_6 => exact lowers_byRefs _ built

theorem lowers_conditional {condition : LoweredExpr H O} (hnt : left.1.isNumeric = true)
    (hnf : right.1.isNumeric = true) (built : Built E H O) :
    Lowers c built (.conditional info condition left.1 right.1)
      (conditional c condition left right (Built.nodes built)) := by
  rw [conditional]
  split
  · next hcond =>
    refine lowers_compose ?_ (fun h => ?_)
      (makes_binary (fun _ _ => rfl) fun _ _ _ => .hull hnt hnf) built
    · intro operand hmem
      rcases List.mem_pair.1 hmem with rfl | rfl
      · exact hleft
      · exact hright
    · exact .conditional hcond (h left (by simp)) (h right (by simp))
  · -- The then branch is placed before the else branch is lowered.
    obtain ⟨added, a, hplace, hext, ha⟩ := (hleft built).exists_place
    obtain ⟨added', b, hplace', hext', hb⟩ := (hright (built ++ added)).exists_place
    simp only [hplace, hplace']
    rw [List.append_assoc] at hb ⊢
    refine .computed (hext.trans hext') (.hull hnt hnf ?_ hb)
    rw [← List.append_assoc]
    exact ha.append added'

end

/-- A node over all arguments of a call. -/
theorem lowers_compose_call {info : ExprInfo H} {name : String} {args : List (Operand E H O)}
    {make : List (Node E) → List Nat → List (Node E) × Node E}
    (hargs : ∀ arg ∈ args, LowersOperand c arg)
    (hmake : Makes c (.functionCall info name (args.map Prod.fst)) (args.map Prod.fst) make)
    (built : Built E H O) :
    Lowers c built (.functionCall info name (args.map Prod.fst))
      (compose c args make (Built.nodes built)) := by
  refine lowers_compose hargs (fun h => .functionCall ?_) hmake built
  intro x hx
  obtain ⟨arg, harg, rfl⟩ := List.mem_map.1 hx
  exact h arg harg

theorem lowers_builtin (info : ExprInfo H) (name : String) {args : List (Operand E H O)}
    (hargs : ∀ arg ∈ args, LowersOperand c arg)
    (hnum : ∀ arg ∈ args, arg.1.isNumeric = true) (built : Built E H O) :
    Lowers c built (.functionCall info name (args.map Prod.fst))
      (builtin c (.functionCall info name (args.map Prod.fst)) name args (Built.nodes built)) := by
  unfold builtin
  split
  case h_1 x =>
    exact lowers_compose_call hargs (makes_unary (fun _ => rfl) fun _ _ => .sqrt (hnum x (by simp)))
      built
  case h_2 x =>
    exact lowers_compose_call hargs (makes_unary (fun _ => rfl) fun _ _ => .abs (hnum x (by simp)))
      built
  case h_3 x y =>
    exact lowers_compose_call hargs (makes_binary (fun _ _ => rfl) fun _ _ _ =>
      .min (hnum x (by simp)) (hnum y (by simp))) built
  case h_4 x y =>
    exact lowers_compose_call hargs (makes_binary (fun _ _ => rfl) fun _ _ _ =>
      .max (hnum x (by simp)) (hnum y (by simp))) built
  case h_5 x lo hi =>
    exact lowers_compose_call hargs
      (makes_clamp (hnum x (by simp)) (hnum lo (by simp)) (hnum hi (by simp))) built
  case h_6 => exact lowers_byRefs _ built

variable [DecidableEq H]

theorem lowerOperands_fst (args : List (LoweredExpr H O)) :
    (lowerOperands c args).map Prod.fst = args := by
  induction args with
  | nil => rfl
  | cons arg args ih => rw [lowerOperands, List.map_cons, ih]

mutual

/-- Lowering appends nodes that compute the expression, or nothing for a constant. -/
theorem lowers_lower : ∀ e : LoweredExpr H O, LowersOperand c (e, lower c e)
  | .valueRef info id => by
    intro built
    simp only [lower]
    split
    · next k hk => exact .leaf rfl (.var hk)
    · exact .leaf rfl .opaqueLeaf
    · next hfixed => exact .fixed fun _ => by simp [isFixed, LoweredExpr.valueRefs, hfixed]
  | .binOp info op left right => by
    intro built
    simp only [lower]
    split
    · next hnum =>
      rw [Bool.and_eq_true] at hnum
      exact lowers_arithmetic (lowers_lower left) (lowers_lower right) hnum.1 hnum.2 built
    · exact lowers_byRefs _ built
  | .unOp info op x => by
    intro built
    simp only [lower]
    split
    · next hnum =>
      obtain ⟨hop, hnum⟩ : op = .neg ∧ x.isNumeric = true := by simpa using hnum
      subst hop
      refine lowers_compose ?_ (fun h => .unOp (h (x, lower c x) (by simp)))
        (makes_unary (fun _ => rfl) fun _ _ => .neg hnum) built
      intro operand hmem
      rw [List.mem_singleton.1 hmem]
      exact lowers_lower x
    · exact lowers_byRefs _ built
  | .functionCall info name args => by
    intro built
    simp only [lower]
    split
    · next hnum =>
      have hbuiltin := lowers_builtin info name (lowers_lowerOperands args)
        (fun arg harg => by
          have hmem : arg.1 ∈ (lowerOperands c args).map Prod.fst := List.mem_map_of_mem harg
          rw [lowerOperands_fst] at hmem
          exact List.all_eq_true.1 hnum _ hmem) built
      rwa [lowerOperands_fst] at hbuiltin
    · exact lowers_byRefs _ built
  | .conditional info condition t f => by
    intro built
    simp only [lower]
    split
    · next hnum =>
      rw [Bool.and_eq_true] at hnum
      exact lowers_conditional (lowers_lower t) (lowers_lower f) hnum.1 hnum.2 built
    · exact lowers_byRefs _ built
  | .other info data refs => by
    intro built
    simp only [lower]
    exact lowers_byRefs _ built

theorem lowers_lowerOperands : ∀ args : List (LoweredExpr H O),
    ∀ operand ∈ lowerOperands c args, LowersOperand c operand
  | [] => by simp [lowerOperands]
  | arg :: args => by
    intro operand hmem
    rw [lowerOperands] at hmem
    rcases List.mem_cons.1 hmem with rfl | hmem
    · exact lowers_lower arg
    · exact lowers_lowerOperands args operand hmem

end

theorem exists_node (e : LoweredExpr H O) (built : Built E H O) :
    ∃ added i, node c e (Built.nodes built) = (Built.nodes (built ++ added), i) ∧
      Extension c built added [i] ∧ Origin (built ++ added) i e :=
  (lowers_lower e built).exists_place

omit [DecidableEq H] in
/-- Nodes appended to none: the operands of each come before it. -/
theorem Extension.operands_lt {built : Built E H O} {pending : List ℕ}
    (h : Extension c [] built pending) (i : Fin (Built.nodes built).length) :
    ∀ j ∈ ((Built.nodes built).get i).operands, j < i := by
  intro j hj
  have hi : (i : ℕ) < built.length := i.isLt.trans_eq (List.length_map _)
  have hget : built[(i : ℕ)]? = some (built[(i : ℕ)].1, built[(i : ℕ)].2) :=
    List.getElem?_eq_getElem hi
  have hlt := h.before i _ _ hget j (by simpa [Built.nodes] using hj)
  simpa using hlt

/-- Two expressions in turn. -/
theorem exists_node_node (e e' : LoweredExpr H O) :
    ∃ built, (node c e' (node c e []).1).1 = Built.nodes built ∧
      Extension c [] built [(node c e []).2, (node c e' (node c e []).1).2] ∧
      Origin built (node c e []).2 e ∧ Origin built (node c e' (node c e []).1).2 e' := by
  obtain ⟨added, i, hnode, hext, hi⟩ := exists_node (c := c) e []
  obtain ⟨added', j, hnode', hext', hj⟩ := exists_node (c := c) e' ([] ++ added)
  rw [Built.nodes, List.map_nil] at hnode
  rw [hnode, hnode']
  refine ⟨added ++ added', rfl, hext.trans hext', ?_, hj⟩
  exact hi.append added'

end

end TreeBuilder

/-! ## Comparisons -/

section
variable [Endpoint E] [NaturalReader E] [DecidableEq H]

open TreeBuilder

/-- A relation, and whether its comparison is strict. -/
structure CompiledRelation (E : Type) [Endpoint E] where
  relation : Relation E
  strict : Bool

/-- The comparison of an operator, and whether it is strict. -/
def BinOp.comparison : BinOp → Option (Comparison × Bool)
  | ge => some (.atLeast, false)
  | gt => some (.atLeast, true)
  | le => some (.atMost, false)
  | lt => some (.atMost, true)
  | eq => some (.equal, false)
  | _ => none

namespace Relation

/-- Lowers the two sides in order. -/
def lowerSides (c : OperandClassifier E H O) (left right : LoweredExpr H O)
    (comparison : Comparison) : Relation E where
  nodes := (node c right (node c left []).1).1
  lhs := (node c left []).2
  rhs := (node c right (node c left []).1).2
  comparison
  dimension := left.info.resultType.dimensionOf
  operands_lt := by
    obtain ⟨built, hnodes, hext, _⟩ := exists_node_node (c := c) left right
    rw [hnodes]
    exact hext.operands_lt
  sides_lt := by
    obtain ⟨built, hnodes, hext, _⟩ := exists_node_node (c := c) left right
    rw [hnodes, List.length_map]
    have hl := hext.pending_lt List.mem_cons_self
    have hr := hext.pending_lt (List.mem_cons_of_mem _ List.mem_cons_self)
    rw [List.length_nil, Nat.zero_add] at hl hr
    exact ⟨hl, hr⟩

/-- Compiles a comparison of numeric operands; none for any other leaf, and for an equality
of operands of different dimensions. -/
def compile (leaf : LoweredExpr H O) (c : OperandClassifier E H O) : Option (CompiledRelation E) :=
  match leaf with
  | .binOp _ op left right =>
    match op.comparison with
    | some (comparison, strict) =>
      if !(left.isNumeric && right.isNumeric) then none
      else if comparison = .equal ∧
          left.info.resultType.dimensionOf ≠ right.info.resultType.dimensionOf then none
      else some ⟨lowerSides c left right comparison, strict⟩
    | none => none
  | _ => none

theorem compile_eq_some {leaf : LoweredExpr H O} {c : OperandClassifier E H O}
    {compiled : CompiledRelation E} (h : compile leaf c = some compiled) :
    ∃ info op left right comparison strict, leaf = .binOp info op left right ∧
      op.comparison = some (comparison, strict) ∧
      left.isNumeric = true ∧ right.isNumeric = true ∧
      (comparison = .equal →
        left.info.resultType.dimensionOf = right.info.resultType.dimensionOf) ∧
      compiled = ⟨lowerSides c left right comparison, strict⟩ := by
  unfold compile at h
  split at h
  · next info op left right =>
    split at h
    · next comparison strict hop =>
      split_ifs at h with hnum hdim
      refine ⟨info, op, left, right, comparison, strict, rfl, hop, ?_, ?_, ?_,
        (Option.some.inj h).symm⟩
      · simp at hnum
        exact hnum.1
      · simp at hnum
        exact hnum.2
      · intro heq
        by_contra hne
        exact hdim ⟨heq, hne⟩
    · cases h
  · cases h

end Relation

end

end Reify
