import Mathlib.Algebra.BigOperators.Group.Finset.Basic
import Mathlib.Algebra.GroupWithZero.Nat
import Mathlib.Algebra.Order.BigOperators.Group.Finset
import Mathlib.Data.Fintype.Basic
import Mathlib.Logic.Function.Basic
import Reify.Foundation.Relation
import Reify.Foundation.WhileLoop

/-!
# Cycle detection by colours

A depth-first search with an explicit stack of nodes and cursors into their successors.  A
node is white until it is met, grey while it is on the stack and black after that.  A
successor that is grey closes a cycle, and the search stops there; a search from every node
that ends without one has shown the graph acyclic.

## Main definitions

* `Colour`, `ColourState`, `colourStep`: the colours, the stack, and one round.
* `colourSearch`: the search from every node of a list.
* `stepPush`, `searchPushes`: the node that a round pushes, and those of a search in order.

## Main results

* `colourSearch_found`: a successor that is found grey lies on a cycle.
* `acyclic_of_colourSearch`: without one the graph is acyclic.
* `searchPushes_nodup`, `mem_searchPushes`: no node is pushed twice, and a search that
  finds no cycle pushes them all.
-/

namespace Foundation

/-- The colour of a node. -/
inductive Colour where
  | white
  | grey
  | black
deriving DecidableEq, Repr

/-- The colours, the stack of nodes with their cursors, top in front, and the grey successor
that was found. -/
structure ColourState (N : Type*) where
  colour : N → Colour
  stack : List (N × ℕ)
  found : Option N

variable {N : Type*} [DecidableEq N]

/-- Colours a node grey and puts it on the stack. -/
def ColourState.push (s : ColourState N) (n : N) : ColourState N :=
  { s with colour := Function.update s.colour n .grey, stack := (n, 0) :: s.stack }

/-- One round: looks at the next successor of the top of the stack, or retreats from it. -/
def colourStep (next : N → List N) (s : ColourState N) : Option (ColourState N) :=
  match s.found, s.stack with
  | some _, _ => none
  | none, [] => none
  | none, (node, k) :: below =>
    match (next node)[k]? with
    | some target =>
      let s := { s with stack := (node, k + 1) :: below }
      match s.colour target with
      | .grey => some { s with found := some target }
      | .white => some (s.push target)
      | .black => some s
    | none => some { s with colour := Function.update s.colour node .black, stack := below }

variable [Fintype N]

/-- The rounds that a run can take at most. -/
def colourFuel (next : N → List N) : ℕ := ∑ n, ((next n).length + 1)

/-- Searches from a node that is still white. -/
def colourFrom (next : N → List N) (s : ColourState N) (start : N) : ColourState N :=
  if s.found.isSome || s.colour start != .white then s
  else loop (colourStep next) (colourFuel next) (s.push start)

/-- Every node white and nothing on the stack. -/
def ColourState.start : ColourState N := ⟨fun _ => .white, [], none⟩

/-- The search from every node of a list. -/
def colourSearch (next : N → List N) (nodes : List N) : ColourState N :=
  nodes.foldl (colourFrom next) .start

variable {next : N → List N}

omit [Fintype N] in
/-- What a round can do. -/
theorem colourStep_cases {s s' : ColourState N} (h : colourStep next s = some s') :
    s.found = none ∧ ∃ node k below, s.stack = (node, k) :: below ∧
      (((next node)[k]? = none ∧ s' =
          { s with colour := Function.update s.colour node .black, stack := below }) ∨
        ∃ target, (next node)[k]? = some target ∧
          ((s.colour target = .grey ∧
              s' = { s with stack := (node, k + 1) :: below, found := some target }) ∨
            (s.colour target = .white ∧
              s' = { s with stack := (node, k + 1) :: below }.push target) ∨
            (s.colour target = .black ∧ s' = { s with stack := (node, k + 1) :: below }))) := by
  unfold colourStep at h
  split at h
  · cases h
  · cases h
  · rename_i node k below hfound hstack
    refine ⟨hfound, node, k, below, hstack, ?_⟩
    split at h
    · rename_i target htarget
      refine .inr ⟨target, htarget, ?_⟩
      dsimp only at h
      split at h
      · rename_i hcolour
        exact .inl ⟨hcolour, (Option.some.inj h).symm⟩
      · rename_i hcolour
        exact .inr (.inl ⟨hcolour, (Option.some.inj h).symm⟩)
      · rename_i hcolour
        exact .inr (.inr ⟨hcolour, (Option.some.inj h).symm⟩)
    · rename_i htarget
      exact .inl ⟨htarget, (Option.some.inj h).symm⟩

omit [Fintype N] in
/-- A run is over when a grey successor is found or the stack is empty. -/
theorem colourStep_eq_none {s : ColourState N} (h : colourStep next s = none) :
    s.found.isSome = true ∨ s.stack = [] := by
  unfold colourStep at h
  split at h
  · rename_i hfound
    rw [hfound]
    exact .inl rfl
  · rename_i hstack
    exact .inr hstack
  · split at h
    · dsimp only at h
      split at h <;> cases h
    · cases h

/-! ## Termination -/

/-- The rounds that the white nodes can still take. -/
def whiteCost (next : N → List N) (colour : N → Colour) : ℕ :=
  ∑ n with colour n = .white, ((next n).length + 1)

/-- The rounds left: those of the white nodes, and what is left of each frame. -/
def colourMeasure (next : N → List N) (s : ColourState N) : ℕ :=
  whiteCost next s.colour + (s.stack.map fun frame => (next frame.1).length - frame.2 + 1).sum

/-- The white nodes lose the node that turns grey. -/
theorem whiteCost_update_grey (next : N → List N) {colour : N → Colour} {n : N} (hn : colour n = .white) :
    (next n).length + 1 + whiteCost next (Function.update colour n .grey) =
      whiteCost next colour := by
  have herase : ({m | Function.update colour n .grey m = .white} : Finset N) =
      ({m | colour m = .white} : Finset N).erase n := by
    ext m
    rw [Finset.mem_erase, Finset.mem_filter_univ, Finset.mem_filter_univ]
    by_cases hm : m = n
    · subst hm
      simp
    · simp [hm]
  rw [whiteCost, herase]
  exact Finset.add_sum_erase _ (fun m => (next m).length + 1) ((Finset.mem_filter_univ n).mpr hn)

/-- A node that turns black leaves no more white nodes. -/
theorem whiteCost_update_black_le (next : N → List N) (colour : N → Colour) (n : N) :
    whiteCost next (Function.update colour n .black) ≤ whiteCost next colour := by
  apply Finset.sum_le_sum_of_subset
  intro m hm
  rw [Finset.mem_filter_univ] at hm ⊢
  by_cases hmn : m = n
  · subst hmn
    simp at hm
  · rwa [Function.update_of_ne hmn] at hm

theorem colourMeasure_push {s : ColourState N} {n : N} (hn : s.colour n = .white) :
    colourMeasure next (s.push n) = colourMeasure next s := by
  have hcost := whiteCost_update_grey next hn
  simp only [colourMeasure, ColourState.push, List.map_cons, List.sum_cons]
  omega

/-- Every round decreases the measure. -/
theorem colourMeasure_decreases : Decreases (colourStep next) (colourMeasure next) := by
  intro s s' h
  obtain ⟨-, node, k, below, hstack, ⟨-, rfl⟩ | ⟨target, htarget, hcases⟩⟩ :=
    colourStep_cases h
  · have hle := whiteCost_update_black_le next s.colour node
    simp only [colourMeasure, hstack, List.map_cons, List.sum_cons]
    omega
  · have hk : k < (next node).length := (List.getElem?_eq_some_iff.mp htarget).1
    rcases hcases with ⟨-, rfl⟩ | ⟨hwhite, rfl⟩ | ⟨-, rfl⟩
    · simp only [colourMeasure, hstack, List.map_cons, List.sum_cons]
      omega
    · rw [colourMeasure_push (s := { s with stack := (node, k + 1) :: below }) hwhite]
      simp only [colourMeasure, hstack, List.map_cons, List.sum_cons]
      omega
    · simp only [colourMeasure, hstack, List.map_cons, List.sum_cons]
      omega

omit [DecidableEq N] in
theorem colourMeasure_le_fuel {s : ColourState N} (hstack : s.stack = []) :
    colourMeasure next s ≤ colourFuel next := by
  rw [colourMeasure, hstack]
  exact Finset.sum_le_univ_sum_of_nonneg fun _ => Nat.zero_le _

/-- A run from a white node comes to an end. -/
theorem colourStep_loop {s : ColourState N} {start : N} (hstack : s.stack = [])
    (hwhite : s.colour start = .white) :
    colourStep next (loop (colourStep next) (colourFuel next) (s.push start)) = none := by
  apply loop_finished colourMeasure_decreases
  rw [colourMeasure_push hwhite]
  exact colourMeasure_le_fuel hstack

/-! ## The invariant -/

/-- The frames below a node: each one's successors behind its cursor are black, or the node
above it, which is one of its successors. -/
def FramesOk (next : N → List N) (colour : N → Colour) : Option N → List (N × ℕ) → Prop
  | _, [] => True
  | above, (node, k) :: below =>
    (∀ m ∈ (next node).take k, colour m = .black ∨ above = some m) ∧
      (∀ m, above = some m → m ∈ next node) ∧ FramesOk next colour (some node) below

omit [DecidableEq N] [Fintype N] in
theorem FramesOk.mono {colour colour' : N → Colour}
    (hblack : ∀ n, colour n = .black → colour' n = .black) {above : Option N}
    {stack : List (N × ℕ)} (h : FramesOk next colour above stack) :
    FramesOk next colour' above stack := by
  induction stack generalizing above with
  | nil => trivial
  | cons frame below ih =>
    obtain ⟨hdone, habove, hbelow⟩ := h
    refine ⟨?_, habove, ih hbelow⟩
    intro m hm
    rcases hdone m hm with hm | hm
    · exact .inl (hblack m hm)
    · exact .inr hm

omit [DecidableEq N] [Fintype N] in
/-- Every node on the stack leads to the one above it. -/
theorem FramesOk.reaches {colour : N → Colour} {stack : List (N × ℕ)} {a : N}
    (h : FramesOk next colour (some a) stack) {frame : N × ℕ} (hframe : frame ∈ stack) :
    Relation.TransGen (fun m n => n ∈ next m) frame.1 a := by
  induction stack generalizing a with
  | nil => cases hframe
  | cons top below ih =>
    obtain ⟨-, habove, hbelow⟩ := h
    have hlast : a ∈ next top.1 := habove a rfl
    rcases List.mem_cons.mp hframe with rfl | hframe
    · exact .single hlast
    · exact (ih hbelow hframe).tail hlast

/-- The colours: the grey nodes are those on the stack, each once; the black nodes are closed
under successors and on no cycle, and a successor found grey is on one. -/
structure ColoursOk (next : N → List N) (s : ColourState N) : Prop where
  grey_iff : ∀ n, s.colour n = .grey ↔ n ∈ s.stack.map Prod.fst
  nodup : (s.stack.map Prod.fst).Nodup
  closed : ∀ n, s.colour n = .black → ∀ m ∈ next n, s.colour m = .black
  acyclic : ∀ n, s.colour n = .black → ¬ Relation.TransGen (fun m n => n ∈ next m) n n
  cyclic : ∀ n, s.found = some n → Relation.TransGen (fun m n => n ∈ next m) n n

/-- The state of the search: until a grey successor is found, the stack is a path. -/
structure ColourInv (next : N → List N) (s : ColourState N) : Prop extends ColoursOk next s where
  frames : s.found = none → FramesOk next s.colour none s.stack

namespace ColourInv

variable {s : ColourState N} {node : N} {k : ℕ} {below : List (N × ℕ)}

omit [DecidableEq N] [Fintype N] in
theorem start : ColourInv next (ColourState.start : ColourState N) where
  grey_iff n := by simp [ColourState.start]
  nodup := List.nodup_nil
  frames _ := trivial
  closed n hn := by cases hn
  acyclic n hn := by cases hn
  cyclic n hn := by cases hn

omit [Fintype N] in
/-- A white node that is a successor of the top, or any one on an empty stack, is pushed. -/
theorem push (h : ColoursOk next s) {n : N} (hn : s.colour n = .white)
    (hframes : FramesOk next s.colour (some n) s.stack) : ColourInv next (s.push n) := by
  have hoff : n ∉ s.stack.map Prod.fst := by
    intro hmem
    rw [(h.grey_iff n).mpr hmem] at hn
    cases hn
  have hblack (m : N) : (s.push n).colour m = .black ↔ s.colour m = .black := by
    show Function.update s.colour n .grey m = .black ↔ _
    by_cases hm : m = n
    · subst hm
      simp [hn]
    · rw [Function.update_of_ne hm]
  refine ⟨⟨?grey_iff, ?nodup, ?closed, ?acyclic, h.cyclic⟩, ?frames⟩
  case grey_iff =>
    intro m
    show Function.update s.colour n .grey m = .grey ↔ m ∈ n :: s.stack.map Prod.fst
    by_cases hm : m = n
    · subst hm
      simp
    · rw [Function.update_of_ne hm, List.mem_cons, h.grey_iff]
      simp [hm]
  case nodup => exact List.nodup_cons.mpr ⟨hoff, h.nodup⟩
  case frames =>
    intro _
    refine ⟨?_, ?_, hframes.mono fun m hm => (hblack m).mpr hm⟩
    · intro m hm
      cases hm
    · intro m hm
      cases hm
  case closed =>
    intro m hm m' hm'
    exact (hblack m').mpr (h.closed m ((hblack m).mp hm) m' hm')
  case acyclic => exact fun m hm => h.acyclic m ((hblack m).mp hm)

omit [DecidableEq N] [Fintype N] in
/-- The cursor of the top moves past a successor that is black or comes on top of it. -/
theorem frames_advance (h : ColourInv next s) (hfound : s.found = none) (hstack : s.stack = (node, k) :: below)
    {target : N} (htarget : (next node)[k]? = some target) {above : Option N}
    (habove : s.colour target = .black ∨ above = some target)
    (hnext : ∀ m, above = some m → m ∈ next node) :
    FramesOk next s.colour above ((node, k + 1) :: below) := by
  have hframes := h.frames hfound
  rw [hstack] at hframes
  obtain ⟨hdone, -, hbelow⟩ := hframes
  refine ⟨?_, hnext, hbelow⟩
  intro m hm
  rw [List.take_add_one, htarget] at hm
  rcases List.mem_append.mp hm with hm | hm
  · rcases hdone m hm with hm | hm
    · exact .inl hm
    · cases hm
  · cases List.mem_singleton.mp hm
    exact habove

omit [Fintype N] in
/-- The top retreats: all its successors are black, so no cycle leads through it. -/
theorem retreat (h : ColourInv next s) (hfound : s.found = none) (hstack : s.stack = (node, k) :: below)
    (hnone : (next node)[k]? = none) :
    ColourInv next
      { s with colour := Function.update s.colour node .black, stack := below } := by
  have hframes := h.frames hfound
  have hnodup := h.nodup
  have hgrey := h.grey_iff
  rw [hstack] at hframes hnodup hgrey
  obtain ⟨hdone, -, hbelow⟩ := hframes
  obtain ⟨hoff, hnodup⟩ := List.nodup_cons.mp hnodup
  have hsuccs : ∀ m ∈ next node, s.colour m = .black := by
    intro m hm
    rw [List.getElem?_eq_none_iff] at hnone
    rw [← List.take_of_length_le hnone] at hm
    rcases hdone m hm with hm | hm
    · exact hm
    · cases hm
  have hnode : s.colour node = .grey := (hgrey node).mpr List.mem_cons_self
  have hblack (m : N) : Function.update s.colour node .black m = .black ↔
      m = node ∨ s.colour m = .black := by
    by_cases hm : m = node
    · subst hm
      simp
    · rw [Function.update_of_ne hm]
      simp [hm]
  -- What the successors of the top reach was black before, and the top was not.
  have hreach {a b : N} (ha : s.colour a = .black)
      (hab : Relation.ReflTransGen (fun m n => n ∈ next m) a b) : s.colour b = .black := by
    induction hab with
    | refl => exact ha
    | tail _ hm ih => exact h.closed _ ih _ hm
  refine ⟨⟨?grey_iff, ?nodup, ?closed, ?acyclic, h.cyclic⟩, ?frames⟩
  case grey_iff =>
    intro m
    show Function.update s.colour node .black m = .grey ↔ _
    by_cases hm : m = node
    · subst hm
      rw [Function.update_self]
      exact ⟨nofun, fun hmem => (hoff hmem).elim⟩
    · rw [Function.update_of_ne hm, hgrey]
      exact ⟨fun hmem => (List.mem_cons.mp hmem).resolve_left hm, List.mem_cons_of_mem _⟩
  case nodup => exact hnodup
  case frames =>
    intro _
    show FramesOk next (Function.update s.colour node .black) none below
    rcases below with - | ⟨⟨node', k'⟩, below⟩
    · trivial
    · obtain ⟨hdone', -, hbelow'⟩ := hbelow
      refine ⟨?_, fun m hm => (by cases hm), hbelow'.mono fun m hm => (hblack m).mpr (.inr hm)⟩
      intro m hm
      rcases hdone' m hm with hm | hm
      · exact .inl ((hblack m).mpr (.inr hm))
      · cases hm
        exact .inl ((hblack node).mpr (.inl rfl))
  case closed =>
    intro m hm m' hm'
    apply (hblack m').mpr
    rcases (hblack m).mp hm with rfl | hm
    · exact .inr (hsuccs m' hm')
    · exact .inr (h.closed m hm m' hm')
  case acyclic =>
    intro m hm hcycle
    rcases (hblack m).mp hm with rfl | hm
    · obtain ⟨m', hm', hback⟩ := Relation.TransGen.head'_iff.mp hcycle
      rw [hreach (hsuccs m' hm') hback] at hnode
      cases hnode
    · exact h.acyclic m hm hcycle

omit [DecidableEq N] [Fintype N] in
/-- A grey successor of the top lies on the stack, so the path closes. -/
theorem cycle (h : ColourInv next s) (hfound : s.found = none) (hstack : s.stack = (node, k) :: below) {target : N}
    (htarget : (next node)[k]? = some target) (hgrey : s.colour target = .grey) :
    Relation.TransGen (fun m n => n ∈ next m) target target := by
  have hlast : target ∈ next node := List.mem_of_getElem? htarget
  have hmem := (h.grey_iff target).mp hgrey
  have hframes := h.frames hfound
  rw [hstack] at hmem hframes
  rcases List.mem_cons.mp hmem with rfl | hmem
  · exact .single hlast
  · obtain ⟨frame, hframe, rfl⟩ := List.mem_map.mp hmem
    exact (hframes.2.2.reaches hframe).tail hlast

omit [Fintype N] in
/-- One round. -/
theorem step (h : ColourInv next s) {s' : ColourState N} (hstep : colourStep next s = some s') :
    ColourInv next s' := by
  obtain ⟨hfound, node, k, below, hstack, ⟨hnone, rfl⟩ | ⟨target, htarget, hcases⟩⟩ :=
    colourStep_cases hstep
  · exact h.retreat hfound hstack hnone
  · -- The cursor alone changes no colour.
    have hadvanced : ColoursOk next { s with stack := (node, k + 1) :: below } := by
      have hmap : s.stack.map Prod.fst = ((node, k + 1) :: below).map Prod.fst := by
        rw [hstack]
        rfl
      constructor
      case grey_iff => exact fun n => hmap ▸ h.grey_iff n
      case nodup => exact hmap ▸ h.nodup
      case closed => exact h.closed
      case acyclic => exact h.acyclic
      case cyclic => exact h.cyclic
    rcases hcases with ⟨hgrey, rfl⟩ | ⟨hwhite, rfl⟩ | ⟨hblack, rfl⟩
    · constructor
      case toColoursOk =>
        refine ⟨hadvanced.grey_iff, hadvanced.nodup, h.closed, h.acyclic, ?_⟩
        intro n hn
        cases hn
        exact h.cycle hfound hstack htarget hgrey
      case frames => exact nofun
    · apply push hadvanced hwhite
      apply h.frames_advance hfound hstack htarget (.inr rfl)
      intro m hm
      cases hm
      exact List.mem_of_getElem? htarget
    · exact ⟨hadvanced, fun _ => h.frames_advance hfound hstack htarget (.inl hblack) nofun⟩

/-- The search from one node: it ends with an empty stack or a cycle, and what was black
stays so. -/
theorem from_ (h : ColourInv next s) (hend : s.found.isSome = true ∨ s.stack = []) (start : N) :
    ColourInv next (colourFrom next s start) ∧
      ((colourFrom next s start).found.isSome = true ∨ (colourFrom next s start).stack = []) := by
  unfold colourFrom
  split_ifs with hskip
  · exact ⟨h, hend⟩
  · rw [Bool.or_eq_true_iff, not_or, bne_iff_ne, not_not] at hskip
    obtain ⟨hfound, hwhite⟩ := hskip
    have hstack : s.stack = [] := hend.resolve_left hfound
    constructor
    · apply loop_invariant fun s s' hs hstep => step hs hstep
      apply push h.toColoursOk hwhite
      rw [hstack]
      trivial
    · exact colourStep_eq_none (colourStep_loop hstack hwhite)

end ColourInv

/-! ## Pushes -/

/-- The node that a round pushes. -/
def stepPush (next : N → List N) (s : ColourState N) : Option N :=
  match s.found, s.stack with
  | none, (node, k) :: _ => (next node)[k]?.filter fun target => s.colour target == .white
  | _, _ => none

/-- The nodes that a run pushes, in order. -/
def loopPushes (next : N → List N) : ℕ → ColourState N → List N
  | 0, _ => []
  | fuel + 1, s =>
    match colourStep next s with
    | none => []
    | some s' => (stepPush next s).toList ++ loopPushes next fuel s'

/-- The nodes that the search from one node pushes. -/
def fromPushes (next : N → List N) (s : ColourState N) (start : N) : List N :=
  if s.found.isSome || s.colour start != .white then []
  else start :: loopPushes next (colourFuel next) (s.push start)

/-- The nodes that a search pushes, in order. -/
def searchPushes (next : N → List N) : List N → ColourState N → List N
  | [], _ => []
  | start :: nodes, s => fromPushes next s start ++ searchPushes next nodes (colourFrom next s start)

/-- Between two states some white nodes are pushed, each once, and the white nodes lose just
these. -/
structure PushedBetween (s : ColourState N) (pushed : List N) (s' : ColourState N) : Prop where
  nodup : pushed.Nodup
  white : ∀ n ∈ pushed, s.colour n = .white
  left : ∀ n, s'.colour n = .white ↔ s.colour n = .white ∧ n ∉ pushed

omit [DecidableEq N] [Fintype N] in
theorem PushedBetween.of_colour_eq {s s' : ColourState N} (h : s'.colour = s.colour) :
    PushedBetween s [] s' where
  nodup := List.nodup_nil
  white _ hn := by cases hn
  left n := by simp [h]

omit [DecidableEq N] [Fintype N] in
theorem PushedBetween.trans {s s' s'' : ColourState N} {pushed pushed' : List N}
    (h : PushedBetween s pushed s') (h' : PushedBetween s' pushed' s'') :
    PushedBetween s (pushed ++ pushed') s'' where
  nodup := by
    rw [List.nodup_append]
    refine ⟨h.nodup, h'.nodup, ?_⟩
    rintro a ha b hb rfl
    exact ((h.left a).mp (h'.white a hb)).2 ha
  white n hn := by
    rcases List.mem_append.mp hn with hn | hn
    · exact h.white n hn
    · exact ((h.left n).mp (h'.white n hn)).1
  left n := by rw [h'.left, h.left, List.mem_append, not_or, and_assoc]

omit [Fintype N] in
theorem PushedBetween.push {s : ColourState N} {n : N} (hn : s.colour n = .white) :
    PushedBetween s [n] (s.push n) where
  nodup := List.nodup_singleton n
  white m hm := List.mem_singleton.mp hm ▸ hn
  left m := by
    show Function.update s.colour n .grey m = .white ↔ _
    by_cases hm : m = n
    · subst hm
      simp
    · rw [Function.update_of_ne hm]
      simp [hm]

omit [Fintype N] in
/-- One round. -/
theorem pushedBetween_step {s s' : ColourState N} (h : ColourInv next s)
    (hstep : colourStep next s = some s') :
    PushedBetween s (stepPush next s).toList s' := by
  obtain ⟨hfound, node, k, below, hstack, hcases⟩ := colourStep_cases hstep
  have hpush : stepPush next s =
      (next node)[k]?.filter fun target => s.colour target == .white := by
    rw [stepPush, hfound, hstack]
  rw [hpush]
  rcases hcases with ⟨hnone, rfl⟩ | ⟨target, htarget, hcases⟩
  · -- The node that turns black was grey.
    have hgrey : s.colour node = .grey := by
      rw [h.grey_iff, hstack]
      exact List.mem_cons_self
    rw [hnone]
    refine ⟨List.nodup_nil, nofun, fun n => ?_⟩
    show Function.update s.colour node .black n = .white ↔ _
    by_cases hn : n = node
    · subst hn
      simp [hgrey]
    · rw [Function.update_of_ne hn]
      simp
  · rw [htarget]
    rcases hcases with ⟨hgrey, rfl⟩ | ⟨hwhite, rfl⟩ | ⟨hblack, rfl⟩
    · rw [Option.filter_some_neg (by simp [hgrey])]
      exact .of_colour_eq rfl
    · rw [Option.filter_some_pos (by simp [hwhite])]
      have hadvanced : PushedBetween s [] { s with stack := (node, k + 1) :: below } :=
        .of_colour_eq rfl
      exact hadvanced.trans (.push hwhite)
    · rw [Option.filter_some_neg (by simp [hblack])]
      exact .of_colour_eq rfl

omit [Fintype N] in
theorem pushedBetween_loop {s : ColourState N} (h : ColourInv next s) (fuel : ℕ) :
    PushedBetween s (loopPushes next fuel s) (loop (colourStep next) fuel s) := by
  induction fuel generalizing s with
  | zero => exact .of_colour_eq rfl
  | succ fuel ih =>
    rw [loopPushes, loop]
    rcases hstep : colourStep next s with - | s'
    · exact .of_colour_eq rfl
    · exact (pushedBetween_step h hstep).trans (ih (h.step hstep))

theorem pushedBetween_from {s : ColourState N} (h : ColourInv next s)
    (hend : s.found.isSome = true ∨ s.stack = []) (start : N) :
    PushedBetween s (fromPushes next s start) (colourFrom next s start) := by
  unfold fromPushes colourFrom
  split_ifs with hskip
  · exact .of_colour_eq rfl
  · rw [Bool.or_eq_true_iff, not_or, bne_iff_ne, not_not] at hskip
    obtain ⟨hfound, hwhite⟩ := hskip
    refine (PushedBetween.push hwhite).trans (pushedBetween_loop ?_ _)
    apply ColourInv.push h.toColoursOk hwhite
    rw [hend.resolve_left hfound]
    trivial

/-! ## The search from every node -/

/-- A search from some nodes, from a state between two of them. -/
theorem ColourInv.foldl {s : ColourState N} (h : ColourInv next s)
    (hend : s.found.isSome = true ∨ s.stack = []) (nodes : List N) :
    ColourInv next (nodes.foldl (colourFrom next) s) ∧
      ((nodes.foldl (colourFrom next) s).found.isSome = true ∨
        (nodes.foldl (colourFrom next) s).stack = []) ∧
      PushedBetween s (searchPushes next nodes s) (nodes.foldl (colourFrom next) s) := by
  induction nodes generalizing s with
  | nil => exact ⟨h, hend, .of_colour_eq rfl⟩
  | cons start nodes ih =>
    obtain ⟨hfrom, hend'⟩ := h.from_ hend start
    obtain ⟨hinv, hend'', hpushed⟩ := ih hfrom hend'
    exact ⟨hinv, hend'', (pushedBetween_from h hend start).trans hpushed⟩

/-- The search from one node leaves it white only if a cycle was found before. -/
theorem colour_colourFrom_ne_white {s : ColourState N} (h : ColourInv next s)
    (hend : s.found.isSome = true ∨ s.stack = []) {start : N} (hfound : s.found = none) :
    (colourFrom next s start).colour start ≠ .white := by
  intro hwhite
  obtain ⟨hbefore, hpushed⟩ := ((pushedBetween_from h hend start).left start).mp hwhite
  apply hpushed
  rw [fromPushes, hfound, hbefore, if_neg (by simp)]
  exact List.mem_cons_self

/-- After a cycle is found the search goes on nowhere. -/
theorem foldl_colourFrom_of_found {s : ColourState N} (h : s.found.isSome = true)
    (nodes : List N) : nodes.foldl (colourFrom next) s = s := by
  induction nodes with
  | nil => rfl
  | cons start nodes ih =>
    rw [List.foldl_cons]
    have hskip : colourFrom next s start = s := by
      rw [colourFrom, h, Bool.true_or, if_pos rfl]
    rw [hskip, ih]

/-- A search that finds no cycle leaves no white node among those it starts from. -/
theorem colour_foldl_ne_white {nodes : List N} {s : ColourState N} (h : ColourInv next s)
    (hend : s.found.isSome = true ∨ s.stack = [])
    (hnone : (nodes.foldl (colourFrom next) s).found = none) :
    ∀ n ∈ nodes, (nodes.foldl (colourFrom next) s).colour n ≠ .white := by
  induction nodes generalizing s with
  | nil => exact nofun
  | cons start nodes ih =>
    obtain ⟨hfrom, hend'⟩ := h.from_ hend start
    intro n hn
    rcases List.mem_cons.mp hn with rfl | hn
    · rcases hfound : s.found with - | found
      · intro hwhite
        apply colour_colourFrom_ne_white h hend hfound
        exact (((hfrom.foldl hend' nodes).2.2.left n).mp hwhite).1
      · have hsome : s.found.isSome = true := by rw [hfound]; rfl
        rw [foldl_colourFrom_of_found hsome, hfound] at hnone
        cases hnone
    · exact ih hfrom hend' hnone n hn

variable {nodes : List N}

/-- **Every successor that is found grey lies on a cycle.** -/
theorem colourSearch_found {n : N} (h : (colourSearch next nodes).found = some n) :
    Relation.TransGen (fun a b => b ∈ next a) n n :=
  (ColourInv.start.foldl (.inr rfl) nodes).1.cyclic n h

/-- **A search from every node that finds no cycle has shown that there is none.** -/
theorem acyclic_of_colourSearch (hnodes : ∀ n, n ∈ nodes)
    (h : (colourSearch next nodes).found = none) : Acyclic fun a b => b ∈ next a := by
  obtain ⟨hinv, hend, -⟩ := (ColourInv.start : ColourInv next .start).foldl (.inr rfl) nodes
  have hstack : (colourSearch next nodes).stack = [] := by
    apply hend.resolve_left
    rw [show (nodes.foldl (colourFrom next) .start).found = none from h]
    exact nofun
  intro n
  apply hinv.acyclic n
  -- Not white, as every node was tried, and not grey, as the stack is empty.
  have hwhite := colour_foldl_ne_white .start (.inr rfl) h n (hnodes n)
  have hgrey : (nodes.foldl (colourFrom next) .start).colour n ≠ .grey := by
    rw [ne_eq, hinv.grey_iff, show (nodes.foldl (colourFrom next) .start).stack = [] from hstack]
    exact List.not_mem_nil
  rcases hcolour : (nodes.foldl (colourFrom next) .start).colour n
  · exact (hwhite hcolour).elim
  · exact (hgrey hcolour).elim
  · rfl

/-- **No node is pushed twice.** -/
theorem searchPushes_nodup : (searchPushes next nodes .start).Nodup :=
  (ColourInv.start.foldl (.inr rfl) nodes).2.2.nodup

/-- **A search that finds no cycle pushes every node.** -/
theorem mem_searchPushes (hnodes : ∀ n, n ∈ nodes) (h : (colourSearch next nodes).found = none)
    (n : N) : n ∈ searchPushes next nodes .start := by
  have hwhite := colour_foldl_ne_white .start (.inr rfl) h n (hnodes n)
  rw [ne_eq, (ColourInv.start.foldl (.inr rfl) nodes).2.2.left, not_and_not_right] at hwhite
  exact hwhite rfl

end Foundation
