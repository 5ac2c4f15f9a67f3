import Reify.Foundation.LexProduct

/-!
# Depth-first search with backjumping

A search that chooses one element from each of a list of candidate lists, visits the
complete choices in lexicographic order and collects the feasible ones up to a limit.  An
infeasible choice may name a level to resume at: everything that agrees with the choice up
to that level is then skipped.

What the search skips is said without the search: a choice is excluded by an earlier one that is
infeasible, agrees with it up to the level that it names, and is not excluded itself.

## Main definitions

* `Control`, `siblings`, `search`: the search, generic in what a complete choice does.
* `collect`: a complete choice that collects the feasible ones.
* `excluded`, `kept`: the choices that the search is kept from, and those that it looks at.
* `LosesNothing`: no choice that is to be collected is excluded.
* `BlameSound`: what is skipped is infeasible.

## Main results

* `search_collect`: the search collects the first feasible choices that are not excluded.
* `search_collect_eq_iff`: these are the first feasible choices exactly where nothing is lost.
* `BlameSound.losesNothing`: with sound blame nothing is lost.
-/

namespace Foundation.Backjump

variable {α S : Type*}

/-! ## The search -/

/-- What a search reports to its caller: that its choices are done, that enough was
collected, or that the search is to resume at a level. -/
inductive Control where
  | proceed
  | stop
  | backjumpTo (level : Nat)
deriving DecidableEq, Repr

/-- The loop over the candidates of a level; `none` where a jump names a deeper level. -/
def siblings (level : Nat) (descend : α → S → Option (Control × S)) :
    List α → S → Option (Control × S)
  | [], s => some (.proceed, s)
  | a :: as, s =>
    match descend a s with
    | none => none
    | some (.proceed, s') => siblings level descend as s'
    | some (.stop, s') => some (.stop, s')
    | some (.backjumpTo j, s') =>
      if j < level then some (.backjumpTo j, s')
      else if j = level then siblings level descend as s'
      else none

/-- The search over the lists that remain, from a level and the choices made before it. -/
def search (leaf : List α → S → Control × S) :
    Nat → List (List α) → List α → S → Option (Control × S)
  | _, [], current, s => some (leaf current s)
  | level, as :: rest, current, s =>
    siblings level (fun a s => search leaf (level + 1) rest (current ++ [a]) s) as s

/-- Collects a feasible choice until there are `limit`; an infeasible one resumes where
it is blamed. -/
def collect (feasible : List α → Bool) (blame : List α → Option Nat) (limit : Nat)
    (current : List α) (found : List (List α)) : Control × List (List α) :=
  if feasible current then
    let found := found ++ [current]
    if limit ≤ found.length then (.stop, found) else (.proceed, found)
  else
    match blame current with
    | some j => (.backjumpTo j, found)
    | none => (.proceed, found)

/-! ## The complete choices below a prefix -/

/-- The complete choices that extend `current` by the lists that remain. -/
def below (rest : List (List α)) (current : List α) : List (List α) :=
  (lexProduct rest).map (current ++ ·)

theorem below_nil (current : List α) : below [] current = [current] := by
  simp [below, lexProduct]

theorem below_cons_nil (rest : List (List α)) (current : List α) :
    below ([] :: rest) current = [] := rfl

theorem below_cons_cons (a : α) (as : List α) (rest : List (List α)) (current : List α) :
    below ((a :: as) :: rest) current = below rest (current ++ [a]) ++ below (as :: rest) current := by
  simp only [below, lexProduct, List.flatMap_cons, List.map_append, List.map_map]
  congr 2
  funext choice
  simp

theorem take_of_mem_below {rest : List (List α)} {current choice : List α}
    (h : choice ∈ below rest current) : choice.take current.length = current := by
  obtain ⟨tail, -, rfl⟩ := List.mem_map.mp h
  exact List.take_left

theorem mem_below_cons {as : List α} {rest : List (List α)} {current choice : List α}
    (h : choice ∈ below (as :: rest) current) :
    ∃ a ∈ as, choice.take (current.length + 1) = current ++ [a] := by
  obtain ⟨tail, htail, rfl⟩ := List.mem_map.mp h
  obtain ⟨a, ha, htail⟩ := List.mem_flatMap.mp htail
  obtain ⟨tail, -, rfl⟩ := List.mem_map.mp htail
  refine ⟨a, ha, ?_⟩
  rw [List.take_length_add_append]
  rfl

/-! ## The choices that are excluded -/

section

variable [DecidableEq α] (feasible : List α → Bool) (blame : List α → Option Nat)

/-- The choice is infeasible, and the other one agrees with it up to where it is blamed. -/
def skips (choice other : List α) : Bool :=
  !feasible choice &&
    (blame choice).any fun j => decide (choice.take (j + 1) = other.take (j + 1))

/-- Whether one of the choices before, of which the latest comes first, skips the choice and is
not excluded itself. -/
def excluded : List (List α) → List α → Bool
  | [], _ => false
  | earlier :: before, choice =>
    excluded before choice || (!excluded before earlier && skips feasible blame earlier choice)

/-- The choices of a list that those before them do not exclude. -/
def kept : List (List α) → List (List α) → List (List α)
  | _, [] => []
  | before, choice :: rest =>
    if excluded feasible blame before choice then kept (choice :: before) rest
    else choice :: kept (choice :: before) rest

/-- None of the first `limit` feasible choices is excluded by those before it. -/
def LosesNothing (limit : Nat) (ass : List (List α)) : Prop :=
  ∀ before choice after, lexProduct ass = before ++ choice :: after → feasible choice = true →
    (before.filter feasible).length < limit →
      excluded feasible blame before.reverse choice = false

end

section

variable [DecidableEq α] {feasible : List α → Bool} {blame : List α → Option Nat}
  {limit depth : Nat} {before : List (List α)}

/-- What is excluded stays so. -/
theorem excluded_append {choice : List α} (later : List (List α))
    (h : excluded feasible blame before choice = true) :
    excluded feasible blame (later ++ before) choice = true := by
  induction later with
  | nil => exact h
  | cons x later ih => rw [List.cons_append, excluded, ih, Bool.true_or]

theorem kept_append (xs ys : List (List α)) :
    kept feasible blame before (xs ++ ys) =
      kept feasible blame before xs ++ kept feasible blame (xs.reverse ++ before) ys := by
  induction xs generalizing before with
  | nil => rfl
  | cons x xs ih =>
    have hreverse : (x :: xs).reverse ++ before = xs.reverse ++ x :: before := by simp
    rw [List.cons_append, kept, kept, ih, hreverse]
    split <;> rfl

/-- Choices that are excluded are not looked at, and they exclude no others. -/
theorem kept_of_excluded {xs : List (List α)}
    (h : ∀ x ∈ xs, excluded feasible blame before x = true) :
    kept feasible blame before xs = [] ∧
      ∀ y, excluded feasible blame (xs.reverse ++ before) y = excluded feasible blame before y := by
  induction xs generalizing before with
  | nil => exact ⟨rfl, fun _ => rfl⟩
  | cons x xs ih =>
    have hx := h x List.mem_cons_self
    have hsame (y : List α) : excluded feasible blame (x :: before) y =
        excluded feasible blame before y := by
      rw [excluded, hx, Bool.not_true, Bool.false_and, Bool.or_false]
    obtain ⟨hkept, hexcluded⟩ := @ih (x :: before) fun y hy => by
      rw [hsame]
      exact h y (List.mem_cons_of_mem x hy)
    constructor
    · rw [kept, if_pos hx, hkept]
    · intro y
      rw [List.reverse_cons, List.append_assoc, List.singleton_append, hexcluded, hsame]

theorem kept_subset (choices : List (List α)) : kept feasible blame before choices ⊆ choices := by
  induction choices generalizing before with
  | nil => exact List.Subset.refl _
  | cons x choices ih =>
    rw [kept]
    split
    · exact List.Subset.trans ih (List.subset_cons_self x choices)
    · exact List.cons_subset_cons x ih

/-! ## What a search collects -/

/-- The feasible choices below a prefix that are looked at. -/
def keptBelow (feasible : List α → Bool) (blame : List α → Option Nat) (before rest : List (List α))
    (current : List α) : List (List α) :=
  (kept feasible blame before (below rest current)).filter feasible

/-- The choices outside a subtree that are excluded once it is searched: those that were, and
after a jump those that agree with its prefix up to the level of the jump. -/
def ExcludesOutside (feasible : List α → Bool) (blame : List α → Option Nat)
    (before rest : List (List α)) (current : List α) (jump : Option Nat) : Prop :=
  ∀ y : List α, y.take current.length ≠ current →
    excluded feasible blame ((below rest current).reverse ++ before) y =
      (excluded feasible blame before y ||
        jump.any fun j => decide (current.take (j + 1) = y.take (j + 1)))

/-- What a search below `current` has done when it returns: its choices that are not excluded are
collected, or it stopped with the first `limit`, or it resumes at a level above. -/
def Collected (feasible : List α → Bool) (blame : List α → Option Nat) (limit : Nat)
    (before rest : List (List α)) (current : List α) (found : List (List α)) :
    Control × List (List α) → Prop
  | (.proceed, found') =>
    found' = found ++ keptBelow feasible blame before rest current ∧ found'.length < limit ∧
      ExcludesOutside feasible blame before rest current none
  | (.stop, found') =>
    found' = (found ++ keptBelow feasible blame before rest current).take limit ∧
      found'.length = limit
  | (.backjumpTo j, found') =>
    j < current.length ∧ found' = found ++ keptBelow feasible blame before rest current ∧
      found'.length < limit ∧ ExcludesOutside feasible blame before rest current (some j)

/-- No choice below the prefix is excluded when its search begins. -/
def Entered (feasible : List α → Bool) (blame : List α → Option Nat) (before : List (List α))
    (current : List α) : Prop :=
  ∀ y : List α, y.take current.length = current → excluded feasible blame before y = false

theorem collected_collect {current : List α} {found : List (List α)}
    (hbounded : ∀ choice j, blame choice = some j → j < depth) (hlength : current.length = depth)
    (hentered : Entered feasible blame before current) (hfound : found.length < limit) :
    Collected feasible blame limit before [] current found
      (collect feasible blame limit current found) := by
  have hfree := hentered current List.take_length
  have hkept : keptBelow feasible blame before [] current =
      if feasible current then [current] else [] := by
    simp [keptBelow, below_nil, kept, hfree, List.filter_cons]
  have houtside (jump : Option Nat)
      (hjump : ∀ y : List α, skips feasible blame current y =
        jump.any fun j => decide (current.take (j + 1) = y.take (j + 1))) :
      ExcludesOutside feasible blame before [] current jump := by
    intro y _
    rw [below_nil, List.reverse_singleton, List.singleton_append, excluded, hfree, hjump,
      Bool.not_false, Bool.true_and]
  unfold collect
  cases hfeasible : feasible current with
  | true =>
    rw [hfeasible, if_pos rfl] at hkept
    by_cases hlimit : limit ≤ (found ++ [current]).length
    · have hlen : (found ++ [current]).length = limit := by
        rw [List.length_append, List.length_singleton] at hlimit ⊢
        omega
      simp only [if_true, if_pos hlimit, Collected, hkept]
      exact ⟨by rw [← hlen, List.take_length], hlen⟩
    · simp only [if_true, if_neg hlimit, Collected, hkept]
      refine ⟨trivial, Nat.lt_of_not_le hlimit, houtside none fun y => ?_⟩
      rw [skips, hfeasible]
      rfl
  | false =>
    rw [hfeasible, if_neg Bool.false_ne_true] at hkept
    simp only [Bool.false_eq_true, if_false]
    cases hblame : blame current with
    | none =>
      simp only [Collected, hkept, List.append_nil]
      refine ⟨trivial, hfound, houtside none fun y => ?_⟩
      rw [skips, hblame]
      exact Bool.and_false _
    | some j =>
      simp only [Collected, hkept, List.append_nil]
      refine ⟨hlength ▸ hbounded current j hblame, trivial, hfound, houtside (some j) fun y => ?_⟩
      rw [skips, hfeasible, hblame]
      rfl

/-! ### The loop over the candidates of a level -/

theorem keptBelow_cons (a : α) (as : List α) (rest : List (List α)) (current : List α) :
    keptBelow feasible blame before ((a :: as) :: rest) current =
      keptBelow feasible blame before rest (current ++ [a]) ++
        keptBelow feasible blame ((below rest (current ++ [a])).reverse ++ before) (as :: rest)
          current := by
  rw [keptBelow, below_cons_cons, kept_append, List.filter_append]
  rfl

omit [DecidableEq α] in
theorem reverse_below_cons (a : α) (as : List α) (rest : List (List α)) (current : List α) :
    (below ((a :: as) :: rest) current).reverse ++ before =
      (below (as :: rest) current).reverse ++ ((below rest (current ++ [a])).reverse ++ before) := by
  rw [below_cons_cons, List.reverse_append, List.append_assoc]

omit [DecidableEq α] in
/-- A choice that leaves a prefix leaves every longer one. -/
theorem take_append_singleton_ne {current y : List α} (a : α)
    (h : y.take current.length ≠ current) :
    y.take (current ++ [a]).length ≠ current ++ [a] := by
  intro heq
  apply h
  have htake := congrArg (List.take current.length) heq
  rwa [List.take_take, List.length_append, List.length_singleton, Nat.min_eq_left (Nat.le_succ _),
    List.take_left] at htake

/-- The later candidates of a level, where the subtree of the one before them is done with. -/
theorem Collected.cons {a : α} {as : List α} {rest : List (List α)} {current : List α}
    {found found' : List (List α)} {r : Control × List (List α)}
    (hfound : found' = found ++ keptBelow feasible blame before rest (current ++ [a]))
    (houtside : ∀ y : List α, y.take current.length ≠ current →
      excluded feasible blame ((below rest (current ++ [a])).reverse ++ before) y =
        excluded feasible blame before y)
    (h : Collected feasible blame limit ((below rest (current ++ [a])).reverse ++ before)
      (as :: rest) current found' r) :
    Collected feasible blame limit before ((a :: as) :: rest) current found r := by
  have hkept := @keptBelow_cons _ _ feasible blame before a as rest current
  have hall (jump : Option Nat) (hrest : ExcludesOutside feasible blame
      ((below rest (current ++ [a])).reverse ++ before) (as :: rest) current jump) :
      ExcludesOutside feasible blame before ((a :: as) :: rest) current jump := by
    intro y hy
    rw [reverse_below_cons, hrest y hy, houtside y hy]
  obtain ⟨control, found''⟩ := r
  cases control with
  | proceed =>
    obtain ⟨heq, hlt, hrest⟩ := h
    exact ⟨by rw [heq, hfound, hkept, List.append_assoc], hlt, hall none hrest⟩
  | stop =>
    obtain ⟨heq, hlimit⟩ := h
    exact ⟨by rw [heq, hfound, hkept, List.append_assoc], hlimit⟩
  | backjumpTo j =>
    obtain ⟨hj, heq, hlt, hrest⟩ := h
    exact ⟨hj, by rw [heq, hfound, hkept, List.append_assoc], hlt, hall (some j) hrest⟩

/-- The subtree of one candidate, then its later siblings. -/
theorem collected_siblings {descend : α → List (List α) → Option (Control × List (List α))}
    {rest : List (List α)} {current : List α}
    (hdescend : ∀ a before found, Entered feasible blame before (current ++ [a]) →
      found.length < limit → ∃ r, descend a found = some r ∧
        Collected feasible blame limit before rest (current ++ [a]) found r)
    {as : List α} (hnodup : as.Nodup) {found : List (List α)}
    (hentered : ∀ a ∈ as, Entered feasible blame before (current ++ [a]))
    (hfound : found.length < limit) :
    ∃ r, siblings current.length descend as found = some r ∧
      Collected feasible blame limit before (as :: rest) current found r := by
  induction as generalizing before found with
  | nil =>
    refine ⟨_, rfl, ?_, hfound, ?_⟩
    · rw [keptBelow, below_cons_nil]
      exact (List.append_nil _).symm
    · intro y _
      rw [below_cons_nil]
      exact (Bool.or_false _).symm
  | cons a as ih =>
    obtain ⟨⟨control, found'⟩, hrun, hcollected⟩ :=
      hdescend a before found (hentered a List.mem_cons_self) hfound
    obtain ⟨hfresh, hnodup⟩ := List.nodup_cons.mp hnodup
    have hlength : (current ++ [a]).length = current.length + 1 := by simp
    -- a choice below another candidate leaves the subtree of this one
    have hleaves {y : List α} {b : α} (hb : b ∈ as)
        (hy : y.take (current ++ [b]).length = current ++ [b]) :
        y.take (current.length + 1) ≠ current ++ [a] := by
      rw [List.length_append, List.length_singleton] at hy
      rw [hy]
      intro heq
      obtain rfl := List.singleton_inj.mp (List.append_cancel_left heq)
      exact hfresh hb
    -- what the later siblings do, where nothing of them is excluded
    have hnext (hexcludes : ∀ y : List α, y.take (current.length + 1) ≠ current ++ [a] →
          excluded feasible blame ((below rest (current ++ [a])).reverse ++ before) y =
            excluded feasible blame before y)
        (heq : found' = found ++ keptBelow feasible blame before rest (current ++ [a]))
        (hlt : found'.length < limit) :
        ∃ r, siblings current.length descend as found' = some r ∧
          Collected feasible blame limit before ((a :: as) :: rest) current found r := by
      obtain ⟨r, hrun', hcollected'⟩ := @ih
        ((below rest (current ++ [a])).reverse ++ before) hnodup found' (by
          intro b hb y hy
          rw [hexcludes y (hleaves hb hy)]
          exact hentered b (List.mem_cons_of_mem a hb) y hy) hlt
      refine ⟨r, hrun', hcollected'.cons heq fun y hy => hexcludes y ?_⟩
      rw [← hlength]
      exact take_append_singleton_ne a hy
    simp only [siblings, hrun]
    cases control with
    | proceed =>
      obtain ⟨heq, hlt, houtside⟩ := hcollected
      apply hnext _ heq hlt
      intro y hy
      rw [houtside y (hlength ▸ hy)]
      exact Bool.or_false _
    | stop =>
      obtain ⟨heq, hlimit⟩ := hcollected
      refine ⟨_, rfl, ?_, hlimit⟩
      rw [keptBelow_cons, ← List.append_assoc, List.take_append_of_le_length, ← heq]
      rw [← hlimit, heq]
      exact List.length_take_le' _ _
    | backjumpTo j =>
      obtain ⟨hj, heq, hlt, houtside⟩ := hcollected
      rw [hlength] at hj
      by_cases habove : j < current.length
      · -- the jump leaves the level, and all that is left of it is excluded
        simp only [if_pos habove]
        have hprefix : (current ++ [a]).take (j + 1) = current.take (j + 1) :=
          List.take_append_of_le_length habove
        have hrest : ∀ y ∈ below (as :: rest) current, excluded feasible blame
            ((below rest (current ++ [a])).reverse ++ before) y = true := by
          intro y hy
          obtain ⟨b, hb, hyb⟩ := mem_below_cons hy
          have hagree : current.take (j + 1) = y.take (j + 1) := by
            rw [← take_of_mem_below hy, List.take_take, Nat.min_eq_left habove]
          rw [houtside y (hlength ▸ hleaves hb (by simpa using hyb)), Option.any_some,
            hprefix, decide_eq_true hagree, Bool.or_true]
        obtain ⟨hnone, hsame⟩ := kept_of_excluded hrest
        refine ⟨_, rfl, habove, ?_, hlt, ?_⟩
        · rw [keptBelow_cons, heq, keptBelow.eq_1 feasible blame _ (as :: rest), hnone,
            List.filter_nil, List.append_nil]
        · intro y hy
          rw [reverse_below_cons, hsame, houtside y (take_append_singleton_ne a hy),
            Option.any_some, Option.any_some, hprefix]
      · have hlevel : j = current.length := by omega
        simp only [if_neg habove, if_pos hlevel]
        apply hnext _ heq hlt
        intro y hy
        have hagree : (current ++ [a]).take (j + 1) = current ++ [a] := by
          rw [hlevel, ← hlength, List.take_length]
        rw [houtside y (hlength ▸ hy), Option.any_some, hagree, hlevel,
          decide_eq_false (Ne.symm hy), Bool.or_false]

/-! ### The search -/

/-- A search collects the choices below its prefix that are not excluded. -/
theorem collected_search (hbounded : ∀ choice j, blame choice = some j → j < depth)
    {rest : List (List α)} (hnodup : ∀ as ∈ rest, as.Nodup) {current : List α}
    {found : List (List α)} (hdepth : current.length + rest.length = depth)
    (hentered : Entered feasible blame before current) (hfound : found.length < limit) :
    ∃ r, search (collect feasible blame limit) current.length rest current found = some r ∧
      Collected feasible blame limit before rest current found r := by
  induction rest generalizing before current found with
  | nil => exact ⟨_, rfl, collected_collect hbounded hdepth hentered hfound⟩
  | cons as rest ih =>
    rw [List.length_cons] at hdepth
    apply collected_siblings ?_ (hnodup as List.mem_cons_self) ?_ hfound
    · intro a before' found' hentered' hfound'
      have hlength : (current ++ [a]).length = current.length + 1 := by simp
      have hbelow := ih (fun bs hbs => hnodup bs (List.mem_cons_of_mem as hbs)) (by omega)
        hentered' hfound'
      rwa [hlength] at hbelow
    · intro a _ y hy
      apply hentered
      by_contra hne
      exact take_append_singleton_ne a hne hy

/-- **The search collects the first `limit` feasible choices that are not excluded.** -/
theorem search_collect {ass : List (List α)}
    (hbounded : ∀ choice j, blame choice = some j → j < ass.length)
    (hnodup : ∀ as ∈ ass, as.Nodup) (hlimit : 0 < limit) :
    ∃ control, search (collect feasible blame limit) 0 ass [] [] =
      some (control, ((kept feasible blame [] (lexProduct ass)).filter feasible).take limit) := by
  have hall : below ass [] = lexProduct ass := by simp [below]
  obtain ⟨⟨control, found⟩, hrun, hcollected⟩ := @collected_search _ _ feasible blame limit _ []
    hbounded ass hnodup [] [] (Nat.zero_add _) (fun _ _ => rfl) hlimit
  refine ⟨control, hrun.trans ?_⟩
  rw [← hall]
  congr 2
  cases control with
  | proceed =>
    obtain ⟨heq, hlt, -⟩ := hcollected
    rw [List.nil_append] at heq
    rw [heq] at hlt ⊢
    exact (List.take_of_length_le (Nat.le_of_lt hlt)).symm
  | stop => exact hcollected.1
  | backjumpTo j => exact absurd hcollected.1 (Nat.not_lt_zero j)

/-! ## Where nothing is lost -/

/-- The first choices that are kept are the first ones, exactly where none of these is
excluded. -/
theorem take_filter_kept_eq_iff {choices : List (List α)} (hnodup : choices.Nodup) :
    ((kept feasible blame before choices).filter feasible).take limit =
        (choices.filter feasible).take limit ↔
      ∀ first choice rest, choices = first ++ choice :: rest → feasible choice = true →
        (first.filter feasible).length < limit →
          excluded feasible blame (first.reverse ++ before) choice = false := by
  induction choices generalizing before limit with
  | nil =>
    refine iff_of_true rfl ?_
    intro first choice rest heq
    simp at heq
  | cons x choices ih =>
    obtain ⟨hfresh, hnodup⟩ := List.nodup_cons.mp hnodup
    -- a choice of the list is the first one, or it comes later
    have hsplit (P : List (List α) → List α → Prop) :
        (∀ first choice rest, x :: choices = first ++ choice :: rest → P first choice) ↔
          P [] x ∧ ∀ first choice rest, choices = first ++ choice :: rest → P (x :: first) choice := by
      constructor
      · intro h
        refine ⟨h [] x choices rfl, fun first choice rest heq => h (x :: first) choice rest ?_⟩
        rw [heq, List.cons_append]
      · rintro ⟨hhead, htail⟩ first choice rest heq
        cases first with
        | nil =>
          obtain ⟨rfl, rfl⟩ := List.cons.inj heq
          exact hhead
        | cons y first =>
          obtain ⟨rfl, hrest⟩ := List.cons.inj heq
          exact htail first choice rest hrest
    rw [hsplit fun first choice => feasible choice = true →
      (first.filter feasible).length < limit →
        excluded feasible blame (first.reverse ++ before) choice = false]
    simp only [List.reverse_cons, List.append_assoc, List.singleton_append, List.reverse_nil,
      List.nil_append, List.filter_nil, List.length_nil]
    cases hfeasible : feasible x with
    | false =>
      -- an infeasible choice counts for nothing, whether it is kept or not
      have hkept : (kept feasible blame before (x :: choices)).filter feasible =
          (kept feasible blame (x :: before) choices).filter feasible := by
        rw [kept]
        split
        · rfl
        · rw [List.filter_cons_of_neg (by rw [hfeasible]; exact Bool.false_ne_true)]
      rw [hkept, List.filter_cons_of_neg (by rw [hfeasible]; exact Bool.false_ne_true), ih hnodup]
      simp [hfeasible]
    | true =>
      cases limit with
      | zero => simp
      | succ limit =>
        rw [List.filter_cons_of_pos hfeasible, kept]
        cases hexcluded : excluded feasible blame before x with
        | true =>
          -- the first feasible choice is lost, and it does not come again
          refine iff_of_false ?_ ?_
          · rw [if_pos rfl]
            intro heq
            have hmem : x ∈ ((kept feasible blame (x :: before) choices).filter feasible).take
                (limit + 1) := by
              rw [heq, List.take_succ_cons]
              exact List.mem_cons_self
            exact hfresh (kept_subset _ (List.mem_of_mem_filter (List.mem_of_mem_take hmem)))
          · rintro ⟨hhead, -⟩
            cases hhead rfl (Nat.succ_pos _)
        | false =>
          rw [if_neg Bool.false_ne_true, List.filter_cons_of_pos hfeasible, List.take_succ_cons,
            List.take_succ_cons, List.cons.injEq, ih hnodup]
          simp [hfeasible]

/-- Whether something is lost can be evaluated. -/
theorem losesNothing_iff {ass : List (List α)} (hnodup : ∀ as ∈ ass, as.Nodup) :
    LosesNothing feasible blame limit ass ↔
      ((kept feasible blame [] (lexProduct ass)).filter feasible).take limit =
        ((lexProduct ass).filter feasible).take limit := by
  have hiff := @take_filter_kept_eq_iff _ _ feasible blame limit [] _ (nodup_lexProduct hnodup)
  simp only [List.append_nil] at hiff
  exact hiff.symm

/-- **The search collects the first `limit` feasible choices exactly where none of them is
excluded.** -/
theorem search_collect_eq_iff {ass : List (List α)}
    (hbounded : ∀ choice j, blame choice = some j → j < ass.length)
    (hnodup : ∀ as ∈ ass, as.Nodup) (hlimit : 0 < limit) :
    (∃ control, search (collect feasible blame limit) 0 ass [] [] =
        some (control, ((lexProduct ass).filter feasible).take limit)) ↔
      LosesNothing feasible blame limit ass := by
  obtain ⟨control, hrun⟩ := @search_collect _ _ feasible _ _ _ hbounded hnodup hlimit
  rw [losesNothing_iff hnodup, hrun]
  constructor
  · rintro ⟨control', heq⟩
    exact congrArg Prod.snd (Option.some.inj heq)
  · intro heq
    exact ⟨control, by rw [heq]⟩

/-! ### Sound blame -/

/-- A choice that agrees up to the level that an infeasible one is blamed at is infeasible too. -/
def BlameSound (feasible : List α → Bool) (blame : List α → Option Nat) (depth : Nat) : Prop :=
  ∀ choice other j, choice.length = depth → other.length = depth →
    feasible choice = false → blame choice = some j → choice.take (j + 1) = other.take (j + 1) →
      feasible other = false

/-- **With sound blame, nothing is lost.** -/
theorem BlameSound.losesNothing {ass : List (List α)}
    (hsound : BlameSound feasible blame ass.length) : LosesNothing feasible blame limit ass := by
  intro first choice rest heq hfeasible _
  have hlengths : ∀ earlier ∈ first.reverse, earlier.length = ass.length := by
    intro earlier hearlier
    apply length_of_mem_lexProduct
    rw [heq]
    exact List.mem_append_left _ (List.mem_reverse.mp hearlier)
  have hchoice : choice.length = ass.length := by
    apply length_of_mem_lexProduct
    rw [heq]
    exact List.mem_append_right _ List.mem_cons_self
  generalize first.reverse = before at hlengths ⊢
  induction before with
  | nil => rfl
  | cons earlier before ih =>
    rw [excluded, ih fun y hy => hlengths y (List.mem_cons_of_mem _ hy), Bool.false_or,
      Bool.and_eq_false_iff]
    refine .inr ?_
    rw [skips]
    cases hinfeasible : feasible earlier with
    | true => rfl
    | false =>
      cases hblame : blame earlier with
      | none => rfl
      | some j =>
        rw [Option.any_some, Bool.not_false, Bool.true_and, decide_eq_false_iff_not]
        intro hagree
        rw [hsound earlier choice j (hlengths earlier List.mem_cons_self) hchoice hinfeasible
          hblame hagree] at hfeasible
        cases hfeasible

/-! ### The first choice -/

omit [DecidableEq α] in
theorem head?_lexProduct {ass : List (List α)} {firsts : List α}
    (h : List.Forall₂ (fun as a => as.head? = some a) ass firsts) :
    (lexProduct ass).head? = some firsts := by
  induction h with
  | nil => rfl
  | @cons as a ass firsts hhead _ ih =>
    obtain ⟨as', rfl⟩ := List.head?_eq_some_iff.mp hhead
    obtain ⟨rest, hrest⟩ := List.head?_eq_some_iff.mp ih
    rw [lexProduct, List.flatMap_cons, hrest]
    rfl

/-- What the first choice skips is lost. -/
theorem not_losesNothing_of_head {ass : List (List α)} {first choice : List α}
    (hfirst : (lexProduct ass).head? = some first) (hchoice : choice ∈ lexProduct ass)
    (hfeasible : feasible choice = true) (hskips : skips feasible blame first choice = true) :
    ¬ LosesNothing feasible blame (lexProduct ass).length ass := by
  intro hloses
  obtain ⟨tail, htail⟩ := List.head?_eq_some_iff.mp hfirst
  have hne : choice ≠ first := by
    rintro rfl
    rw [skips, hfeasible] at hskips
    cases hskips
  rw [htail] at hchoice
  obtain ⟨before, after, rfl⟩ :=
    List.append_of_mem ((List.mem_cons.mp hchoice).resolve_left hne)
  have hkept := hloses (first :: before) choice after htail hfeasible (by
    have hle := List.length_filter_le feasible (first :: before)
    rw [htail]
    simp only [List.length_cons, List.length_append] at hle ⊢
    omega)
  rw [List.reverse_cons, excluded_append] at hkept
  · cases hkept
  · rw [excluded, excluded, hskips]
    rfl

end

end Foundation.Backjump
