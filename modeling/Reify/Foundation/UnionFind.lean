import Mathlib.Data.List.Basic
import Mathlib.Logic.Function.Basic
import Mathlib.Logic.Relation
import Mathlib.Order.Basic
import Reify.Foundation.WhileLoop

/-!
# Union-find

A forest of parent pointers in which two nodes belong together exactly if they are below
the same root.  Looking a root up may shorten the paths it walks, and joining two nodes
hangs the root of one below the root of the other.  Two variants are treated: path
splitting with union by rank, and a second walk that hangs every node it meets directly
below the root, with unions in the order of the arguments.

## Main definitions

* `Forest`: the pointers lead to the given roots.
* `Partitions`: the classes of a forest are those of the equivalence that a relation
  generates.
* `UnionFind`: the variant with ranks.
* `findCompressing`, `unionInto`: the variant without.

## Main results

* `UnionFind.find_spec`, `findCompressing_spec`: a look-up answers the root and moves none.
* `UnionFind.union_partitions`, `unionInto_partitions`: a union adds one pair to the
  relation.
* `partitions_unionAll`: joining the first node of a list with the others makes the list
  one class.
-/

namespace Foundation

open Relation

variable {N : Type*}

/-! ## Forests -/

/-- The pointers lead to the roots `rep`, and the height falls on the way up. -/
structure RootedForest (support : List N) (parent rep : N → N) (height : N → ℕ) : Prop where
  mem : ∀ x ∈ support, parent x ∈ support
  rep_parent : ∀ x, rep (parent x) = rep x
  rep_root : ∀ x, parent x = x → rep x = x
  descends : ∀ x, parent x ≠ x → height (parent x) < height x

namespace RootedForest

variable {support : List N} {parent rep : N → N} {height : N → ℕ}

/-- A property that a node has when its parent has it holds of all nodes. -/
theorem induction (h : RootedForest support parent rep height) {P : N → Prop}
    (hroot : ∀ x, parent x = x → P x) (hstep : ∀ x, parent x ≠ x → P (parent x) → P x) (x : N) :
    P x := by
  induction hn : height x using Nat.strong_induction_on generalizing x with
  | _ n ih =>
    by_cases hx : parent x = x
    · exact hroot x hx
    · exact hstep x hx (ih _ (hn ▸ h.descends x hx) _ rfl)

theorem parent_rep (h : RootedForest support parent rep height) (x : N) :
    parent (rep x) = rep x := by
  refine h.induction (P := fun x => parent (rep x) = rep x) (fun x hx => ?_)
    (fun x _ ih => ?_) x
  · rw [h.rep_root x hx, hx]
  · rwa [h.rep_parent] at ih

theorem rep_rep (h : RootedForest support parent rep height) (x : N) : rep (rep x) = rep x :=
  h.rep_root _ (h.parent_rep x)

theorem rep_mem (h : RootedForest support parent rep height) (x : N) (hx : x ∈ support) :
    rep x ∈ support := by
  revert hx
  refine h.induction (P := fun x => x ∈ support → rep x ∈ support) (fun x hroot hx => ?_)
    (fun x _ ih hx => ?_) x
  · rwa [h.rep_root x hroot]
  · rw [← h.rep_parent]
    exact ih (h.mem x hx)

theorem height_rep_le (h : RootedForest support parent rep height) (x : N) :
    height (rep x) ≤ height x := by
  refine h.induction (P := fun x => height (rep x) ≤ height x) (fun x hroot => ?_)
    (fun x hx ih => ?_) x
  · rw [h.rep_root x hroot]
  · rw [h.rep_parent] at ih
    exact ih.trans (h.descends x hx).le

theorem height_rep_lt (h : RootedForest support parent rep height) {x : N} (hx : rep x ≠ x) :
    height (rep x) < height x := by
  have hparent : parent x ≠ x := fun hroot => hx (h.rep_root x hroot)
  have hle := h.height_rep_le (parent x)
  rw [h.rep_parent] at hle
  exact hle.trans_lt (h.descends x hparent)

variable [DecidableEq N]

/-- Hanging a node below a lower node of its own tree keeps the forest. -/
theorem redirect (h : RootedForest support parent rep height) {x y : N} (hy : rep y = rep x)
    (hlt : height y < height x) (hmem : x ∈ support → y ∈ support) :
    RootedForest support (Function.update parent x y) rep height where
  mem := by
    intro z hz
    by_cases hzx : z = x
    · rw [hzx, Function.update_self]
      exact hmem (hzx ▸ hz)
    · rw [Function.update_of_ne hzx]
      exact h.mem z hz
  rep_parent := by
    intro z
    by_cases hzx : z = x
    · rw [hzx, Function.update_self, hy]
    · rw [Function.update_of_ne hzx, h.rep_parent]
  rep_root := by
    intro z hroot
    by_cases hzx : z = x
    · -- `x` is not a root now: it hangs below something lower
      rw [hzx, Function.update_self] at hroot
      exact absurd (hroot ▸ hlt) (lt_irrefl _)
    · rw [Function.update_of_ne hzx] at hroot
      exact h.rep_root z hroot
  descends := by
    intro z hz
    by_cases hzx : z = x
    · rw [hzx, Function.update_self]
      exact hlt
    · rw [Function.update_of_ne hzx] at hz ⊢
      exact h.descends z hz

/-- Hanging a root below another one merges their trees; the tree below is raised above
the height of its new root. -/
theorem link (h : RootedForest support parent rep height) {a b : N} (ha : parent a = a)
    (hb : parent b = b) (hne : a ≠ b) (hmem : a ∈ support → b ∈ support) :
    RootedForest support (Function.update parent a b) (fun x => if rep x = a then b else rep x)
      (fun x => if rep x = a then height x + height b + 1 else height x) := by
  have hrepa : rep a = a := h.rep_root a ha
  have hrepb : rep b = b := h.rep_root b hb
  have hba : rep b ≠ a := by rw [hrepb]; exact hne.symm
  refine ⟨?_, ?_, ?_, ?_⟩
  · intro x hx
    by_cases hxa : x = a
    · rw [hxa, Function.update_self]
      exact hmem (hxa ▸ hx)
    · rw [Function.update_of_ne hxa]
      exact h.mem x hx
  · intro x
    by_cases hxa : x = a
    · rw [hxa, Function.update_self, if_pos hrepa, if_neg hba, hrepb]
    · rw [Function.update_of_ne hxa, h.rep_parent]
  · intro x hroot
    by_cases hxa : x = a
    · rw [hxa, Function.update_self] at hroot
      exact absurd hroot hne.symm
    · rw [Function.update_of_ne hxa] at hroot
      rw [h.rep_root x hroot, if_neg hxa]
  · intro x hx
    by_cases hxa : x = a
    · rw [hxa, Function.update_self, if_pos hrepa, if_neg hba]
      omega
    · rw [Function.update_of_ne hxa] at hx ⊢
      have hlt := h.descends x hx
      rw [h.rep_parent]
      split <;> omega

end RootedForest

/-- The pointers lead to the roots `rep`. -/
def Forest (support : List N) (parent rep : N → N) : Prop :=
  ∃ height, RootedForest support parent rep height

/-- The classes of the forest are those of the equivalence that the relation generates. -/
def Partitions (support : List N) (parent : N → N) (r : N → N → Prop) : Prop :=
  ∃ rep, Forest support parent rep ∧ ∀ x y, rep x = rep y ↔ EqvGen r x y

/-- The relation and one pair more. -/
def Adjoin (r : N → N → Prop) (a b : N) (x y : N) : Prop := r x y ∨ x = a ∧ y = b

theorem partitions_id (support : List N) : Partitions support id fun _ _ : N => False := by
  refine ⟨id, ⟨fun _ => 0, fun _ hx => hx, fun _ => rfl, fun _ _ => rfl,
    fun x hx => absurd rfl hx⟩, fun x y => ⟨?_, ?_⟩⟩
  · rintro rfl
    exact EqvGen.refl x
  · intro h
    induction h with
    | rel _ _ h => exact h.elim
    | refl _ => rfl
    | symm _ _ _ ih => exact ih.symm
    | trans _ _ _ _ _ ih ih' => exact ih.trans ih'

theorem Partitions.congr {support : List N} {parent : N → N} {r r' : N → N → Prop}
    (h : Partitions support parent r) (hr : ∀ x y, EqvGen r x y ↔ EqvGen r' x y) :
    Partitions support parent r' := by
  obtain ⟨rep, hforest, hrep⟩ := h
  exact ⟨rep, hforest, fun x y => (hrep x y).trans (hr x y)⟩

/-- One pair more merges two classes. -/
theorem eqvGen_adjoin_iff {rep : N → N} {r : N → N → Prop}
    (hrep : ∀ x y, rep x = rep y ↔ EqvGen r x y) {a b x y : N} :
    EqvGen (Adjoin r a b) x y ↔ rep x = rep y ∨ rep x = rep a ∧ rep y = rep b ∨
      rep x = rep b ∧ rep y = rep a := by
  constructor
  · intro h
    induction h with
    | rel x y h =>
      rcases h with h | ⟨rfl, rfl⟩
      · exact .inl ((hrep x y).mpr (.rel _ _ h))
      · exact .inr (.inl ⟨rfl, rfl⟩)
    | refl x => exact .inl rfl
    | symm x y _ ih => grind
    | trans x y z _ _ ih ih' => grind
  · have hmono : ∀ x y, rep x = rep y → EqvGen (Adjoin r a b) x y := fun x y hxy =>
      EqvGen.mono (fun _ _ => .inl) _ _ ((hrep x y).mp hxy)
    have hab : EqvGen (Adjoin r a b) a b := .rel _ _ (.inr ⟨rfl, rfl⟩)
    rintro (hxy | ⟨hxa, hyb⟩ | ⟨hxb, hya⟩)
    · exact hmono x y hxy
    · exact ((hmono x a hxa).trans _ _ _ hab).trans _ _ _ (hmono b y hyb.symm)
    · exact ((hmono x b hxb).trans _ _ _ (hab.symm _ _)).trans _ _ _ (hmono a y hya.symm)

section

variable [DecidableEq N]

/-- Hanging the root of one node below the root of another adds the pair to the
relation. -/
theorem partitions_link {support : List N} {parent rep : N → N} {r : N → N → Prop}
    (h : Forest support parent rep) (hrep : ∀ x y, rep x = rep y ↔ EqvGen r x y) {a b : N}
    (hb : b ∈ support) (hne : rep a ≠ rep b) :
    Partitions support (Function.update parent (rep a) (rep b)) (Adjoin r a b) := by
  obtain ⟨height, h⟩ := h
  refine ⟨_, ⟨_, h.link (h.parent_rep a) (h.parent_rep b) hne fun _ => h.rep_mem b hb⟩, ?_⟩
  intro x y
  rw [eqvGen_adjoin_iff hrep]
  grind

omit [DecidableEq N] in
/-- Two nodes with one root stay as they are. -/
theorem partitions_of_rep_eq {support : List N} {parent rep : N → N} {r : N → N → Prop}
    (h : Forest support parent rep) (hrep : ∀ x y, rep x = rep y ↔ EqvGen r x y) {a b : N}
    (hab : rep a = rep b) : Partitions support parent (Adjoin r a b) := by
  refine ⟨rep, h, fun x y => ?_⟩
  rw [eqvGen_adjoin_iff hrep]
  grind

end

theorem Adjoin.comm {r : N → N → Prop} {a b x y : N} :
    EqvGen (Adjoin r a b) x y ↔ EqvGen (Adjoin r b a) x y := by
  have hswap : ∀ a b x y, EqvGen (Adjoin r a b) x y → EqvGen (Adjoin r b a) x y := by
    intro a b x y h
    induction h with
    | rel x y h =>
      rcases h with h | ⟨rfl, rfl⟩
      · exact .rel _ _ (.inl h)
      · exact .symm _ _ (.rel _ _ (.inr ⟨rfl, rfl⟩))
    | refl x => exact .refl x
    | symm x y _ ih => exact .symm _ _ ih
    | trans x y z _ _ ih ih' => exact .trans _ _ _ ih ih'
  exact ⟨hswap a b x y, hswap b a x y⟩

/-! ## The length of a walk up -/

/-- How many nodes of the support are lower than a node. -/
def below (support : List N) (height : N → ℕ) (x : N) : ℕ :=
  (support.filter fun y => decide (height y < height x)).length

theorem below_lt {support : List N} {height : N → ℕ} {x y : N} (hy : y ∈ support)
    (hlt : height y < height x) : below support height y < below support height x := by
  have hsub : support.filter (fun z => decide (height z < height y)) =
      (support.filter fun z => decide (height z < height x)).filter
        fun z => decide (height z < height y) := by
    rw [List.filter_filter]
    apply List.filter_congr
    intro z _
    rw [← Bool.decide_and, decide_eq_decide]
    omega
  rw [below, below, hsub, List.length_filter_lt_length_iff_exists]
  exact ⟨y, List.mem_filter.mpr ⟨hy, decide_eq_true hlt⟩, by simp⟩

theorem below_le (support : List N) (height : N → ℕ) (x : N) :
    below support height x ≤ support.length := List.length_filter_le _ _

/-! ## Path splitting and union by rank -/

/-- Parent pointers with a rank for every root. -/
structure UnionFind (N : Type*) where
  parent : N → N
  rank : N → ℕ

variable [DecidableEq N]

/-- One round of the walk: a node is hung below its grandparent, and the walk goes on
there. -/
def splitStep (s : (N → N) × N) : Option ((N → N) × N) :=
  if s.1 s.2 = s.2 then none
  else
    let parent := Function.update s.1 s.2 (s.1 (s.1 s.2))
    some (parent, parent s.2)

namespace UnionFind

/-- Every node is a root. -/
def new : UnionFind N := ⟨id, fun _ => 0⟩

/-- The root of a node, with path splitting. -/
def find (fuel : ℕ) (uf : UnionFind N) (x : N) : N × UnionFind N :=
  let s := loop splitStep fuel (uf.parent, x)
  (s.2, { uf with parent := s.1 })

/-- Joins the classes of two nodes, by rank. -/
def union (fuel : ℕ) (uf : UnionFind N) (a b : N) : UnionFind N :=
  let (ra, uf) := uf.find fuel a
  let (rb, uf) := uf.find fuel b
  if ra = rb then uf
  else if uf.rank ra < uf.rank rb then { uf with parent := Function.update uf.parent ra rb }
  else if uf.rank rb < uf.rank ra then { uf with parent := Function.update uf.parent rb ra }
  else
    { parent := Function.update uf.parent rb ra
      rank := Function.update uf.rank ra (uf.rank ra + 1) }

variable {support : List N} {rep : N → N} {r : N → N → Prop} {uf : UnionFind N} {fuel : ℕ}

/-- **A look-up answers the root and moves none.** -/
theorem find_spec (h : Forest support uf.parent rep) (hfuel : support.length ≤ fuel) {x : N}
    (hx : x ∈ support) :
    (uf.find fuel x).1 = rep x ∧ Forest support (uf.find fuel x).2.parent rep := by
  obtain ⟨height, h⟩ := h
  have hstep : ∀ s s' : (N → N) × N,
      (RootedForest support s.1 rep height ∧ s.2 ∈ support ∧ rep s.2 = rep x) →
      splitStep s = some s' →
      (RootedForest support s'.1 rep height ∧ s'.2 ∈ support ∧ rep s'.2 = rep x) ∧
        below support height s'.2 < below support height s.2 := by
    rintro ⟨parent, y⟩ s' ⟨hforest, hy, hrep⟩ hs'
    rw [splitStep] at hs'
    split at hs'
    · cases hs'
    · next hroot =>
      cases hs'
      have hgrand : rep (parent (parent y)) = rep y := by
        rw [hforest.rep_parent, hforest.rep_parent]
      have hmem : parent (parent y) ∈ support := hforest.mem _ (hforest.mem y hy)
      have hlt : height (parent (parent y)) < height y := by
        have hparent := hforest.descends y hroot
        by_cases hnext : parent (parent y) = parent y
        · rwa [hnext]
        · exact (hforest.descends _ hnext).trans hparent
      dsimp only
      rw [Function.update_self]
      exact ⟨⟨hforest.redirect hgrand hlt fun _ => hmem, hmem, hgrand.trans hrep⟩,
        below_lt hmem hlt⟩
  have hstart : RootedForest support uf.parent rep height ∧ x ∈ support ∧ rep x = rep x :=
    ⟨h, hx, rfl⟩
  obtain ⟨hforest, -, hrep⟩ := @loop_invariant _ splitStep
    (fun s => RootedForest support s.1 rep height ∧ s.2 ∈ support ∧ rep s.2 = rep x)
    (fun s s' hs hs' => (hstep s s' hs hs').1) fuel (uf.parent, x) hstart
  have hend := @loop_finished_of_invariant _ splitStep (fun s => below support height s.2) _ hstep
    fuel (uf.parent, x) hstart ((below_le support height x).trans hfuel)
  rw [splitStep] at hend
  split at hend
  · next hroot => exact ⟨(hforest.rep_root _ hroot).symm.trans hrep, height, hforest⟩
  · cases hend

/-- **A union by rank** adds one pair to the relation. -/
theorem union_partitions (h : Partitions support uf.parent r) (hfuel : support.length ≤ fuel)
    {a b : N} (ha : a ∈ support) (hb : b ∈ support) :
    Partitions support (uf.union fuel a b).parent (Adjoin r a b) := by
  obtain ⟨rep, hforest, hrep⟩ := h
  obtain ⟨hfinda, hforesta⟩ := find_spec hforest hfuel ha
  obtain ⟨hfindb, hforestb⟩ := find_spec hforesta hfuel hb
  simp only [union, hfinda, hfindb]
  split
  · next hab => exact partitions_of_rep_eq hforestb hrep hab
  · next hab =>
    have hswapped : Partitions support
        (Function.update ((uf.find fuel a).2.find fuel b).2.parent (rep b) (rep a))
        (Adjoin r a b) :=
      (partitions_link hforestb hrep ha (Ne.symm hab)).congr fun x y => Adjoin.comm
    split
    · exact partitions_link hforestb hrep hb hab
    · split
      · exact hswapped
      · exact hswapped

end UnionFind

/-! ## A second walk that compresses the path -/

/-- One step of the walk to the root. -/
def walkUp (parent : N → N) (x : N) : Option N :=
  if parent x = x then none else some (parent x)

/-- One step of the second walk: a node is hung below the root. -/
def compressStep (root : N) (s : (N → N) × N) : Option ((N → N) × N) :=
  if s.1 s.2 = root then none else some (Function.update s.1 s.2 root, s.1 s.2)

/-- The root of a node; every node on the way is hung below it. -/
def findCompressing (fuel : ℕ) (parent : N → N) (x : N) : N × (N → N) :=
  let root := loop (walkUp parent) fuel x
  (root, (loop (compressStep root) fuel (parent, x)).1)

/-- Joins the classes of two nodes: the root of the first is hung below that of the
second. -/
def unionInto (fuel : ℕ) (parent : N → N) (a b : N) : N → N :=
  let (ra, parent) := findCompressing fuel parent a
  let (rb, parent) := findCompressing fuel parent b
  if ra ≠ rb then Function.update parent ra rb else parent

section

variable {support : List N} {parent rep : N → N} {r : N → N → Prop} {fuel : ℕ}

omit [DecidableEq N] in
/-- The end of the walk up. -/
theorem loop_walkUp [DecidableEq N] (h : Forest support parent rep)
    (hfuel : support.length ≤ fuel) {x : N} (hx : x ∈ support) :
    loop (walkUp parent) fuel x = rep x := by
  obtain ⟨height, h⟩ := h
  have hstep : ∀ y y', (y ∈ support ∧ rep y = rep x) → walkUp parent y = some y' →
      (y' ∈ support ∧ rep y' = rep x) ∧
        below support height y' < below support height y := by
    intro y y' ⟨hy, hrep⟩ hy'
    rw [walkUp] at hy'
    split at hy'
    · cases hy'
    · next hroot =>
      cases hy'
      exact ⟨⟨h.mem y hy, (h.rep_parent y).trans hrep⟩,
        below_lt (h.mem y hy) (h.descends y hroot)⟩
  obtain ⟨-, hrep⟩ := loop_invariant (P := fun y => y ∈ support ∧ rep y = rep x)
    (fun y y' hy hy' => (hstep y y' hy hy').1) fuel ⟨hx, rfl⟩
  have hend := loop_finished_of_invariant hstep ⟨hx, rfl⟩
    ((below_le support height x).trans hfuel)
  rw [walkUp] at hend
  split at hend
  · next hroot => exact (h.rep_root _ hroot).symm.trans hrep
  · cases hend

/-- **A look-up answers the root and moves none.** -/
theorem findCompressing_spec (h : Forest support parent rep) (hfuel : support.length ≤ fuel)
    {x : N} (hx : x ∈ support) :
    (findCompressing fuel parent x).1 = rep x ∧
      Forest support (findCompressing fuel parent x).2 rep := by
  have hroot := loop_walkUp h hfuel hx
  obtain ⟨height, h⟩ := h
  simp only [findCompressing, hroot, true_and]
  refine ⟨height, ?_⟩
  -- The second walk stays in the tree of `x`, and hangs its nodes below their own root.
  refine (loop_invariant (P := fun s : (N → N) × N =>
    RootedForest support s.1 rep height ∧ s.2 ∈ support ∧ rep s.2 = rep x) ?_ fuel
    ⟨h, hx, rfl⟩).1
  rintro ⟨parent, y⟩ s' ⟨hforest, hy, hrep⟩ hs'
  rw [compressStep] at hs'
  split at hs'
  · cases hs'
  · next hparent =>
    cases hs'
    have hne : rep y ≠ y := by
      intro heq
      apply hparent
      rw [← hrep, heq]
      have := hforest.parent_rep y
      rwa [heq] at this
    refine ⟨?_, hforest.mem y hy, (hforest.rep_parent y).trans hrep⟩
    rw [← hrep]
    exact hforest.redirect (hforest.rep_rep y) (hforest.height_rep_lt hne) fun _ =>
      hforest.rep_mem y hy

/-- **A union** adds one pair to the relation. -/
theorem unionInto_partitions (h : Partitions support parent r) (hfuel : support.length ≤ fuel)
    {a b : N} (ha : a ∈ support) (hb : b ∈ support) :
    Partitions support (unionInto fuel parent a b) (Adjoin r a b) := by
  obtain ⟨rep, hforest, hrep⟩ := h
  obtain ⟨hfinda, hforesta⟩ := findCompressing_spec hforest hfuel ha
  obtain ⟨hfindb, hforestb⟩ := findCompressing_spec hforesta hfuel hb
  simp only [unionInto, hfinda, hfindb]
  split
  · next hab => exact partitions_link hforestb hrep hb hab
  · next hab => exact partitions_of_rep_eq hforestb hrep (not_not.mp hab)

end

/-! ## Classes made of lists -/

section

variable {S : Type*}

/-- Joins the first node of a list with each of the others. -/
def unionAll (union : S → N → N → S) (s : S) : List N → S
  | [] => s
  | x :: xs => xs.foldl (fun s y => union s x y) s

variable {support : List N} {parentOf : S → N → N} {union : S → N → N → S}

omit [DecidableEq N] in
/-- The nodes of one list belong together. -/
def Together (r : N → N → Prop) (ns : List N) (x y : N) : Prop := r x y ∨ x ∈ ns ∧ y ∈ ns

omit [DecidableEq N] in
/-- Joining the nodes of each of several pairs. -/
theorem partitions_foldl_pairs
    (hunion : ∀ s r a b, a ∈ support → b ∈ support → Partitions support (parentOf s) r →
      Partitions support (parentOf (union s a b)) (Adjoin r a b))
    {pairs : List (N × N)} (hpairs : ∀ e ∈ pairs, e.1 ∈ support ∧ e.2 ∈ support) {s : S}
    {r : N → N → Prop} (h : Partitions support (parentOf s) r) :
    Partitions support (parentOf (pairs.foldl (fun s e => union s e.1 e.2) s))
      (fun x y => r x y ∨ (x, y) ∈ pairs) := by
  induction pairs generalizing s r with
  | nil => simpa using h
  | cons e pairs ih =>
    rw [List.foldl_cons]
    obtain ⟨ha, hb⟩ := hpairs e List.mem_cons_self
    have hrest := ih (fun e he => hpairs e (List.mem_cons_of_mem _ he)) (hunion s r e.1 e.2 ha hb h)
    have hsame : (fun x y => Adjoin r e.1 e.2 x y ∨ (x, y) ∈ pairs) =
        fun x y => r x y ∨ (x, y) ∈ e :: pairs := by
      ext x y
      simp only [Adjoin, List.mem_cons, Prod.ext_iff, or_assoc]
    rwa [← hsame]

omit [DecidableEq N] in
/-- **Joining the first node of a list with the others** makes the list one class. -/
theorem partitions_unionAll
    (hunion : ∀ s r a b, a ∈ support → b ∈ support → Partitions support (parentOf s) r →
      Partitions support (parentOf (union s a b)) (Adjoin r a b))
    {ns : List N} (hns : ∀ y ∈ ns, y ∈ support) {s : S} {r : N → N → Prop}
    (h : Partitions support (parentOf s) r) :
    Partitions support (parentOf (unionAll union s ns)) (Together r ns) := by
  cases ns with
  | nil =>
    have hsame : Together r [] = r := by
      funext a b
      simp [Together]
    rwa [hsame]
  | cons x xs =>
    have hpairs : ∀ e ∈ xs.map (fun y => (x, y)), e.1 ∈ support ∧ e.2 ∈ support := by
      intro e he
      obtain ⟨y, hy, rfl⟩ := List.mem_map.mp he
      exact ⟨hns x List.mem_cons_self, hns y (List.mem_cons_of_mem _ hy)⟩
    have hjoined := partitions_foldl_pairs hunion hpairs h
    rw [List.foldl_map] at hjoined
    have hstar : (fun a b => r a b ∨ (a, b) ∈ xs.map fun y => (x, y)) =
        fun a b => r a b ∨ a = x ∧ b ∈ xs := by
      ext a b
      simp only [List.mem_map, Prod.ext_iff]
      grind
    rw [hstar] at hjoined
    refine hjoined.congr fun a b => ⟨fun hab => ?_, fun hab => ?_⟩
    · refine EqvGen.mono (fun a b hab => ?_) _ _ hab
      rcases hab with hab | ⟨rfl, hb⟩
      · exact .inl hab
      · exact .inr ⟨List.mem_cons_self .., List.mem_cons_of_mem _ hb⟩
    · -- both nodes of a new pair are joined with the first one
      have hfirst : ∀ y ∈ x :: xs, EqvGen (fun a b => r a b ∨ a = x ∧ b ∈ xs) x y := by
        intro y hy
        rcases List.mem_cons.mp hy with rfl | hy
        · exact .refl _
        · exact .rel _ _ (.inr ⟨rfl, hy⟩)
      induction hab with
      | rel a b hab =>
        rcases hab with hab | ⟨ha, hb⟩
        · exact .rel _ _ (.inl hab)
        · exact .trans _ _ _ (.symm _ _ (hfirst a ha)) (hfirst b hb)
      | refl a => exact .refl a
      | symm a b _ ih => exact .symm _ _ ih
      | trans a b c _ _ ih ih' => exact .trans _ _ _ ih ih'

omit [DecidableEq N] in
/-- Joining the nodes of each of several lists. -/
theorem partitions_foldl_unionAll
    (hunion : ∀ s r a b, a ∈ support → b ∈ support → Partitions support (parentOf s) r →
      Partitions support (parentOf (union s a b)) (Adjoin r a b))
    {nss : List (List N)} (hnss : ∀ ns ∈ nss, ∀ y ∈ ns, y ∈ support) {s : S} {r : N → N → Prop}
    (h : Partitions support (parentOf s) r) :
    Partitions support (parentOf (nss.foldl (unionAll union) s))
      (fun x y => r x y ∨ ∃ ns ∈ nss, x ∈ ns ∧ y ∈ ns) := by
  induction nss generalizing s r with
  | nil => simpa using h
  | cons ns nss ih =>
    rw [List.foldl_cons]
    have hns := partitions_unionAll hunion (hnss ns (List.mem_cons_self ..)) h
    have hrest := ih (fun ns hns => hnss ns (List.mem_cons_of_mem _ hns)) hns
    have hsame : (fun x y => Together r ns x y ∨ ∃ ns ∈ nss, x ∈ ns ∧ y ∈ ns) =
        fun x y => r x y ∨ ∃ ns' ∈ ns :: nss, x ∈ ns' ∧ y ∈ ns' := by
      funext x y
      simp only [Together, List.exists_mem_cons_iff, or_assoc]
    rwa [← hsame]

end

end Foundation
