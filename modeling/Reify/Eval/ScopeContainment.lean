import Reify.Compiler.RecursiveStructures
import Reify.Foundation.KeyedSort
import Reify.Foundation.PushSearch

/-!
# Objectives of containers

A template without an objective of its own inherits the one of its nearest container.  The
search climbs from the query to its containers; it stops at a container that bears an
objective, which it records, and at a recursive one.

## Main definitions

* `TopologyTemplate`, `ContainerObjective`.
* `ContainmentIndex`, `nearestContainerObjective`.
* `Ascends`: a container above the query that the climb gets to.

## Main results

* `mem_containers_iff`: the index is the transpose of the references.
* `nearestContainerObjective_exact`: the answer is that of the bearers above the query.
-/

namespace Reify.ScopeContainment

open Foundation RecursiveStructures

variable {O : Type}

/-- A template with the objective that it bears. -/
structure TopologyTemplate (O : Type) extends RecursiveStructures.TopologyTemplate where
  objective : Option O

/-- Which container provides the objective that a scope inherits. -/
inductive ContainerObjective (O : Type) where
  | inherited (objective : O) (container : String)
  | ambiguous (containers : List String)
  | none

/-! ## The index -/

/-- The containers of each template, the templates, and the index of each name. -/
structure ContainmentIndex (O : Type) where
  reverse : List (List ℕ)
  templates : List (TopologyTemplate O)
  nameToIdx : HashMap String ℕ

/-- The index of the last template of each name. -/
def lastNamed (templates : List (TopologyTemplate O)) : HashMap String ℕ :=
  templates.zipIdx.foldl (fun m entry => m.insert entry.1.name entry.2) ∅

/-- Adds a container to the row of each of its children. -/
def addContainer (reverse : List (List ℕ)) (row : List ℕ × ℕ) : List (List ℕ) :=
  row.1.foldl (fun reverse child => reverse.modify child fun containers => containers ++ [row.2])
    reverse

/-- The rows of containers, transposed from those of children. -/
def transposeRows (forward : List (List ℕ)) (n : ℕ) : List (List ℕ) :=
  forward.zipIdx.foldl addContainer (List.replicate n [])

/-- `ContainmentIndex::new`. -/
def ContainmentIndex.new (templates : List (TopologyTemplate O)) : ContainmentIndex O :=
  let nameToIdx := lastNamed templates
  let forward :=
    subComponentForwardAdjacency (templates.map TopologyTemplate.toTopologyTemplate) nameToIdx
  { reverse := (transposeRows forward templates.length).map fun containers => containers.mergeSort
    templates
    nameToIdx }

namespace ContainmentIndex

/-- The containers of a template. -/
def containers (index : ContainmentIndex O) (i : ℕ) : List ℕ := (index.reverse[i]?).getD []

/-- One round of the climb, with the nodes visited and the bearers found. -/
def visitContainer (index : ContainmentIndex O) (ci : ℕ) (s : HashSet ℕ × List ℕ) :
    (HashSet ℕ × List ℕ) × List ℕ :=
  match index.templates[ci]? with
  | none => (s, [])
  | some container =>
    if container.objective.isSome then ((s.1, s.2 ++ [ci]), [])
    else if container.isRecursive then (s, [])
    else (((markAll s.1 (index.containers ci)).1, s.2), (markAll s.1 (index.containers ci)).2)

/-- The climb from a template: the queue at its end, the nodes visited and the bearers found. -/
def ascent (index : ContainmentIndex O) (start : ℕ) : List ℕ × HashSet ℕ × List ℕ :=
  let visited := (∅ : HashSet ℕ).insert start
  let seeds := markAll visited (index.containers start)
  drain index.visitContainer
    (unpaid (List.range index.templates.length) (fun _ => 1) visited) seeds.2 (seeds.1, [])

/-- What the bearers found amount to. -/
def summary (index : ContainmentIndex O) (found : List ℕ) : ContainerObjective O :=
  match found with
  | [] => .none
  | [ci] =>
    match index.templates[ci]? with
    | some container =>
      match container.objective with
      | some objective => .inherited objective container.name
      | none => .none
    | none => .none
  | found => .ambiguous (found.mergeSort.map fun i =>
      ((index.templates[i]?).map fun t => t.name).getD "")

/-- `ContainmentIndex::nearest_container_objective`. -/
def nearestContainerObjective (index : ContainmentIndex O) (template : TopologyTemplate O) :
    ContainerObjective O :=
  match index.nameToIdx.get template.name with
  | none => .none
  | some start => index.summary (index.ascent start).2.2

end ContainmentIndex

/-- `nearest_container_objective`: builds the index for one query. -/
def nearestContainerObjective (template : TopologyTemplate O)
    (templates : List (TopologyTemplate O)) : ContainerObjective O :=
  (ContainmentIndex.new templates).nearestContainerObjective template

/-! ## Above a query -/

/-- A sub-component of the one template names the other. -/
def Holds (container child : TopologyTemplate O) : Prop :=
  ∃ sub ∈ container.subComponents, sub.structureName = child.name

/-- The containers above a query that a path of containments leads up to, through containers
that bear no objective and are not recursive, and round the query itself. -/
inductive Ascends (templates : List (TopologyTemplate O)) (query : TopologyTemplate O) :
    TopologyTemplate O → Prop
  | container {c : TopologyTemplate O} (hc : c ∈ templates) (h : Holds c query)
    (hne : c.name ≠ query.name) : Ascends templates query c
  | step {c p : TopologyTemplate O} (h : Ascends templates query c) (hobjective : c.objective = none)
    (hrecursive : c.isRecursive = false) (hp : p ∈ templates) (hholds : Holds p c)
    (hne : p.name ≠ query.name) : Ascends templates query p

/-- A container above a query that bears an objective. -/
def Bears (templates : List (TopologyTemplate O)) (query t : TopologyTemplate O) : Prop :=
  Ascends templates query t ∧ t.objective.isSome = true

/-- The answer for some bearers in slice order. -/
def answer : List (TopologyTemplate O) → ContainerObjective O
  | [] => .none
  | [t] =>
    match t.objective with
    | some objective => .inherited objective t.name
    | none => .none
  | ts => .ambiguous (ts.map fun t => t.name)

variable {templates : List (TopologyTemplate O)}

/-! ## The transpose -/

/-- The row of a template in some rows. -/
def rowAt (rows : List (List ℕ)) (i : ℕ) : List ℕ := (rows[i]?).getD []

theorem mem_rowAt_modify {rows : List (List ℕ)} {child c i j : ℕ} :
    c ∈ rowAt (rows.modify child fun containers => containers ++ [j]) i ↔
      c ∈ rowAt rows i ∨ (c = j ∧ i = child ∧ i < rows.length) := by
  rw [rowAt, rowAt, List.getElem?_modify]
  rcases lt_or_ge i rows.length with hi | hi
  · rw [List.getElem?_eq_getElem hi]
    by_cases hchild : child = i
    · subst hchild
      simp [hi]
    · simp [hchild, Ne.symm hchild]
  · rw [List.getElem?_eq_none hi]
    simp [not_lt.mpr hi]

theorem length_addContainer (rows : List (List ℕ)) (row : List ℕ × ℕ) :
    (addContainer rows row).length = rows.length := by
  unfold addContainer
  induction row.1 generalizing rows with
  | nil => rfl
  | cons child children ih => rw [List.foldl_cons, ih, List.length_modify]

theorem mem_rowAt_addContainer {rows : List (List ℕ)} {row : List ℕ × ℕ} {c i : ℕ} :
    c ∈ rowAt (addContainer rows row) i ↔
      c ∈ rowAt rows i ∨ (c = row.2 ∧ i ∈ row.1 ∧ i < rows.length) := by
  unfold addContainer
  induction row.1 generalizing rows with
  | nil => simp
  | cons child children ih =>
    rw [List.foldl_cons, ih, mem_rowAt_modify, List.length_modify, List.mem_cons]
    tauto

theorem mem_rowAt_foldl {entries : List (List ℕ × ℕ)} {rows : List (List ℕ)} {c i : ℕ} :
    c ∈ rowAt (entries.foldl addContainer rows) i ↔
      c ∈ rowAt rows i ∨ ∃ row ∈ entries, c = row.2 ∧ i ∈ row.1 ∧ i < rows.length := by
  induction entries generalizing rows with
  | nil => simp
  | cons row entries ih =>
    rw [List.foldl_cons, ih, mem_rowAt_addContainer, length_addContainer]
    simp only [List.mem_cons, exists_eq_or_imp]
    tauto

theorem mem_rowAt_transposeRows {forward : List (List ℕ)} {n c i : ℕ} :
    c ∈ rowAt (transposeRows forward n) i ↔ i < n ∧ ∃ row, forward[c]? = some row ∧ i ∈ row := by
  rw [transposeRows, mem_rowAt_foldl, List.length_replicate]
  have hempty : c ∉ rowAt (List.replicate n []) i := by
    rw [rowAt, List.getElem?_replicate]
    split_ifs <;> simp
  constructor
  · rintro (h | ⟨⟨row, c'⟩, hrow, rfl, hi, hlt⟩)
    · exact (hempty h).elim
    · exact ⟨hlt, row, List.mem_zipIdx_iff_getElem?.mp hrow, hi⟩
  · rintro ⟨hlt, row, hrow, hi⟩
    exact .inr ⟨(row, c), List.mem_zipIdx_iff_getElem?.mpr hrow, rfl, hi, hlt⟩

/-! ## The index of distinct names -/

/-- No two templates have one name. -/
def DistinctNames (templates : List (TopologyTemplate O)) : Prop :=
  (templates.map fun t => t.name).Nodup

instance : Decidable (DistinctNames templates) := inferInstanceAs (Decidable (List.Nodup _))

theorem DistinctNames.idx_eq (hnames : DistinctNames templates) {i j : ℕ}
    {t u : TopologyTemplate O} (ht : templates[i]? = some t) (hu : templates[j]? = some u)
    (hname : t.name = u.name) : i = j := by
  have hi : i < (templates.map fun t => t.name).length := by
    rw [List.length_map]
    exact (List.getElem?_eq_some_iff.mp ht).1
  apply (List.getElem?_inj hi hnames).mp
  rw [List.getElem?_map, List.getElem?_map, ht, hu, Option.map_some, Option.map_some, hname]

/-- Where the names are distinct, the index of a name is that of its template. -/
theorem get_lastNamed_iff (hnames : DistinctNames templates) {name : String} {i : ℕ} :
    (lastNamed templates).get name = some i ↔
      ∃ t, templates[i]? = some t ∧ t.name = name := by
  have hfold : lastNamed templates = templates.zipIdx.foldl
      (fun m entry => m.insert entry.1.name entry.2) ∅ := rfl
  rw [hfold]
  constructor
  · intro hget
    rw [@HashMap.get_foldl_insert _ _ _ _ (fun entry : TopologyTemplate O × ℕ => entry.1.name)
      Prod.snd, HashMap.get_empty, Option.or_none, Option.map_eq_some_iff] at hget
    obtain ⟨⟨t, j⟩, hfind, rfl⟩ := hget
    have hmem := List.mem_reverse.mp (List.mem_of_find?_eq_some hfind)
    have hname := List.find?_some hfind
    rw [decide_eq_true_eq] at hname
    exact ⟨t, List.mem_zipIdx_iff_getElem?.mp hmem, hname⟩
  · rintro ⟨t, ht, rfl⟩
    have hmem : (t, i) ∈ templates.zipIdx := List.mem_zipIdx_iff_getElem?.mpr ht
    refine @HashMap.get_foldl_insert_of_mem _ _ _ _
      (fun entry : TopologyTemplate O × ℕ => entry.1.name) Prod.snd _ _ _ hmem ?_
    rintro ⟨u, j⟩ hu hname
    exact hnames.idx_eq (List.mem_zipIdx_iff_getElem?.mp hu) ht hname

theorem getElem?_forward (m : HashMap String ℕ) (c : ℕ) :
    (subComponentForwardAdjacency (templates.map TopologyTemplate.toTopologyTemplate) m)[c]? =
      (templates[c]?).map fun p =>
        dedup ((p.subComponents.filterMap fun sub => m.get sub.structureName).mergeSort) := by
  rw [subComponentForwardAdjacency, List.getElem?_map, List.getElem?_map, Option.map_map]
  rfl

/-- **The index is the transpose of the containments.** -/
theorem mem_containers_iff (hnames : DistinctNames templates) {c i : ℕ} :
    c ∈ (ContainmentIndex.new templates).containers i ↔
      ∃ p t, templates[c]? = some p ∧ templates[i]? = some t ∧ Holds p t := by
  have hsorted : c ∈ (ContainmentIndex.new templates).containers i ↔
      c ∈ rowAt (transposeRows (subComponentForwardAdjacency
        (templates.map TopologyTemplate.toTopologyTemplate) (lastNamed templates))
        templates.length) i := by
    unfold ContainmentIndex.containers ContainmentIndex.new rowAt
    dsimp only
    rw [List.getElem?_map]
    cases (transposeRows (subComponentForwardAdjacency
      (templates.map TopologyTemplate.toTopologyTemplate) (lastNamed templates))
      templates.length)[i]? with
    | none => rfl
    | some row =>
      rw [Option.map_some, Option.getD_some, Option.getD_some]
      exact List.mem_mergeSort
  rw [hsorted, mem_rowAt_transposeRows]
  constructor
  · rintro ⟨-, row, hrow, hi⟩
    rw [getElem?_forward, Option.map_eq_some_iff] at hrow
    obtain ⟨p, hp, rfl⟩ := hrow
    rw [mem_dedup, List.mem_mergeSort, List.mem_filterMap] at hi
    obtain ⟨sub, hsub, hget⟩ := hi
    obtain ⟨t, ht, hname⟩ := (get_lastNamed_iff hnames).mp hget
    exact ⟨p, t, hp, ht, sub, hsub, hname.symm⟩
  · rintro ⟨p, t, hp, ht, sub, hsub, hname⟩
    refine ⟨(List.getElem?_eq_some_iff.mp ht).1, ?_⟩
    rw [getElem?_forward, hp]
    refine ⟨_, rfl, ?_⟩
    rw [mem_dedup, List.mem_mergeSort, List.mem_filterMap]
    exact ⟨sub, hsub, (get_lastNamed_iff hnames).mpr ⟨t, ht, hname.symm⟩⟩

/-! ## The climb -/

section Climb

variable {query : TopologyTemplate O} {start : ℕ}

/-- The containers that the climb goes on to from a template. -/
def goesOn (index : ContainmentIndex O) (ci : ℕ) : List ℕ :=
  match index.templates[ci]? with
  | none => []
  | some container =>
    if container.objective.isSome || container.isRecursive then [] else index.containers ci

/-- Whether the climb records a template. -/
def records (index : ContainmentIndex O) (ci : ℕ) : Bool :=
  ((index.templates[ci]?).map fun container => container.objective.isSome).getD false

/-- Records a template that bears an objective. -/
def record (index : ContainmentIndex O) (ci : ℕ) (found : List ℕ) : List ℕ :=
  if records index ci then found ++ [ci] else found

/-- The climb is a search that marks on push. -/
theorem visitContainer_eq (index : ContainmentIndex O) :
    index.visitContainer = visitPushing (goesOn index) (record index) := by
  ext1 ci
  ext1 s
  unfold ContainmentIndex.visitContainer visitPushing goesOn record records
  rcases index.templates[ci]? with - | container
  · rfl
  · dsimp only [Option.map_some, Option.getD_some]
    by_cases hobjective : container.objective.isSome = true
    · simp [hobjective, markAll]
    · by_cases hrecursive : container.isRecursive = true
      · simp [hobjective, hrecursive, markAll]
      · simp [hobjective, hrecursive]

theorem ascent_eq (index : ContainmentIndex O) (start : ℕ) :
    index.ascent start = pushSearch (goesOn index) (record index)
      (List.range index.templates.length) ((∅ : HashSet ℕ).insert start) (index.containers start)
      [] := by
  rw [ContainmentIndex.ascent, visitContainer_eq]
  rfl

theorem foldl_record (index : ContainmentIndex O) (order found : List ℕ) :
    order.foldl (fun found ci => record index ci found) found =
      found ++ order.filter (records index) := by
  induction order generalizing found with
  | nil => simp
  | cons ci order ih =>
    rw [List.foldl_cons, ih, List.filter_cons, record]
    split_ifs <;> simp

theorem lt_of_mem_containers (hnames : DistinctNames templates) {c i : ℕ}
    (h : c ∈ (ContainmentIndex.new templates).containers i) :
    c ∈ List.range templates.length := by
  obtain ⟨p, t, hp, -⟩ := (mem_containers_iff hnames).mp h
  exact List.mem_range.mpr (List.getElem?_eq_some_iff.mp hp).1

theorem lt_of_mem_goesOn (hnames : DistinctNames templates) {c i : ℕ}
    (h : c ∈ goesOn (ContainmentIndex.new templates) i) : c ∈ List.range templates.length := by
  unfold goesOn at h
  split at h
  · cases h
  · split_ifs at h
    · cases h
    · exact lt_of_mem_containers hnames h

/-- **What the climb reaches is what ascends from the query.** -/
theorem reachedOff_iff (hnames : DistinctNames templates) (hstart : templates[start]? = some query)
    {ci : ℕ} :
    ReachedOff (goesOn (ContainmentIndex.new templates)) ((∅ : HashSet ℕ).insert start)
        ((ContainmentIndex.new templates).containers start) ci ↔
      ∃ c, templates[ci]? = some c ∧ Ascends templates query c := by
  have hoff {j : ℕ} {t : TopologyTemplate O} (ht : templates[j]? = some t) :
      j ∉ (∅ : HashSet ℕ).insert start ↔ t.name ≠ query.name := by
    rw [HashSet.mem_insert, or_iff_left (HashSet.not_mem_empty j)]
    apply not_congr
    constructor
    · rintro rfl
      rw [ht] at hstart
      rw [Option.some.inj hstart]
    · exact hnames.idx_eq ht hstart
  constructor
  · intro h
    induction h with
    | root hmem hnot =>
      obtain ⟨p, t, hp, ht, hholds⟩ := (mem_containers_iff hnames).mp hmem
      rw [hstart] at ht
      cases ht
      exact ⟨p, hp, .container (List.mem_of_getElem? hp) hholds ((hoff hp).mp hnot)⟩
    | step _ hmem hnot ih =>
      obtain ⟨c, hc, hascends⟩ := ih
      unfold goesOn at hmem
      rw [show (ContainmentIndex.new templates).templates = templates from rfl, hc] at hmem
      dsimp only at hmem
      split_ifs at hmem with hstops
      · cases hmem
      · rw [Bool.or_eq_true, not_or, Bool.not_eq_true, Option.isSome_eq_false_iff,
          Option.isNone_iff_eq_none, Bool.not_eq_true] at hstops
        obtain ⟨p, t, hp, ht, hholds⟩ := (mem_containers_iff hnames).mp hmem
        rw [hc] at ht
        cases ht
        exact ⟨p, hp, hascends.step hstops.1 hstops.2 (List.mem_of_getElem? hp) hholds
          ((hoff hp).mp hnot)⟩
  · rintro ⟨c, hc, hascends⟩
    induction hascends generalizing ci with
    | container hmem hholds hne =>
      exact .root ((mem_containers_iff hnames).mpr ⟨_, _, hc, hstart, hholds⟩) ((hoff hc).mpr hne)
    | step hbelow hobjective hrecursive hmem hholds hne ih =>
      -- The template below is in the slice, at an index of its own.
      rename_i c' p
      have hc'mem : c' ∈ templates := by cases hbelow <;> assumption
      obtain ⟨j, hj⟩ := List.mem_iff_getElem?.mp hc'mem
      refine (ih hj).step ?_ ((hoff hc).mpr hne)
      unfold goesOn
      rw [show (ContainmentIndex.new templates).templates = templates from rfl, hj]
      dsimp only
      rw [hobjective, hrecursive, if_neg (by simp)]
      exact (mem_containers_iff hnames).mpr ⟨p, c', hc, hj, hholds⟩

/-! ## The answer -/

/-- The bearers found, sorted, are some templates with their indices. -/
theorem summary_eq_answer {found : List ℕ} {entries : List (TopologyTemplate O × ℕ)}
    (hsorted : found.mergeSort = entries.map Prod.snd)
    (hentries : ∀ e ∈ entries, templates[e.2]? = some e.1) :
    (ContainmentIndex.new templates).summary found = answer (entries.map Prod.fst) := by
  have hlen : found.length = entries.length := by
    rw [← List.length_mergeSort found, hsorted, List.length_map]
  match found, entries with
  | [], [] => rfl
  | [ci], [(t, i)] =>
    rw [List.mergeSort_singleton] at hsorted
    obtain rfl : ci = i := (List.cons.inj hsorted).1
    have ht : templates[ci]? = some t := hentries (t, ci) List.mem_cons_self
    show (match templates[ci]? with
      | some container =>
        match container.objective with
        | some objective => .inherited objective container.name
        | none => .none
      | none => .none : ContainerObjective O) = _
    rw [ht]
    rfl
  | a :: b :: rest, e :: e' :: es =>
    show ContainerObjective.ambiguous ((a :: b :: rest).mergeSort.map fun i =>
      ((templates[i]?).map fun t => t.name).getD "") =
        .ambiguous (((e :: e' :: es).map Prod.fst).map fun t => t.name)
    rw [hsorted, List.map_map, List.map_map]
    congr 1
    apply List.map_congr_left
    intro e'' he''
    rw [Function.comp_apply, hentries e'' he'']
    rfl

theorem pairwise_snd_zipIdx (templates : List (TopologyTemplate O)) :
    (templates.zipIdx.map Prod.snd).Pairwise (· < ·) := by
  rw [List.zipIdx_map_snd, ← List.range_eq_range']
  exact List.pairwise_lt_range

/-- **Inheritance is exact.**  For distinct names the answer to a query of the slice is that of
the bearers above it, in slice order: none, the only one, or all of them as ambiguous; and the
climb empties its queue. -/
theorem nearestContainerObjective_exact (hnames : DistinctNames templates)
    (hquery : query ∈ templates) :
    (∃ bearers : List (TopologyTemplate O), bearers.Sublist templates ∧
      (∀ t ∈ templates, t ∈ bearers ↔ Bears templates query t) ∧
      (∀ t ∈ bearers, t.objective.isSome = true) ∧
      nearestContainerObjective query templates = answer bearers) ∧
    ∀ start, ((ContainmentIndex.new templates).ascent start).1 = [] := by
  constructor
  swap
  · intro start
    rw [ascent_eq]
    exact pushSearch_fst (fun _ _ => lt_of_mem_goesOn hnames) (fun _ => lt_of_mem_containers hnames)
      []
  obtain ⟨start, hstart⟩ := List.mem_iff_getElem?.mp hquery
  obtain ⟨order, hnodup, horder, hfound⟩ := @exists_order_pushSearch _ _ _ _
    (record (ContainmentIndex.new templates)) _ _ ((∅ : HashSet ℕ).insert start)
    (fun _ _ => lt_of_mem_goesOn hnames) (fun _ => lt_of_mem_containers (i := start) hnames) []
  rw [foldl_record, List.nil_append] at hfound
  generalize hlist : order.filter (records (ContainmentIndex.new templates)) = found at hfound
  -- What is found is the indices of the bearers, each once.
  have hmem {t : TopologyTemplate O} {i : ℕ} (ht : templates[i]? = some t) :
      i ∈ found ↔ Bears templates query t := by
    have hrecords : records (ContainmentIndex.new templates) i = t.objective.isSome := by
      show ((templates[i]?).map fun container => container.objective.isSome).getD false = _
      rw [ht]
      rfl
    rw [← hlist, List.mem_filter, horder, reachedOff_iff hnames hstart, hrecords, Bears]
    apply and_congr_left'
    exact ⟨fun ⟨c, hc, h⟩ => by rw [ht] at hc; cases hc; exact h, fun h => ⟨t, ht, h⟩⟩
  have hlt {i : ℕ} (hi : i ∈ found) : ∃ t, templates[i]? = some t := by
    rw [← hlist, List.mem_filter, horder, reachedOff_iff hnames hstart] at hi
    obtain ⟨⟨c, hc, -⟩, -⟩ := hi
    exact ⟨c, hc⟩
  let entries := templates.zipIdx.filter fun e => decide (e.2 ∈ found)
  have hentries : ∀ e ∈ entries, templates[e.2]? = some e.1 :=
    fun e he => List.mem_zipIdx_iff_getElem?.mp (List.mem_filter.mp he).1
  have hsorted : found.mergeSort = entries.map Prod.snd := by
    have hfoundNodup : found.Nodup := hlist ▸ hnodup.filter _
    apply eq_of_pairwise_lt
    · have hle := List.pairwise_mergeSort' (r := (· ≤ ·)) found
      have hne := (List.mergeSort_perm found (fun a b => decide (a ≤ b))).nodup_iff.mpr hfoundNodup
      exact hle.imp₂ (fun a b hab hne => lt_of_le_of_ne hab hne) hne
    · exact (pairwise_snd_zipIdx templates).sublist (List.filter_sublist.map _)
    · intro i
      rw [List.mem_mergeSort, List.mem_map]
      constructor
      · intro hi
        obtain ⟨t, ht⟩ := hlt hi
        exact ⟨(t, i), List.mem_filter.mpr
          ⟨List.mem_zipIdx_iff_getElem?.mpr ht, decide_eq_true hi⟩, rfl⟩
      · rintro ⟨e, he, rfl⟩
        exact of_decide_eq_true (List.mem_filter.mp he).2
  refine ⟨entries.map Prod.fst, ?_, ?_, ?_, ?_⟩
  · have hsub := (List.filter_sublist (p := fun e : TopologyTemplate O × ℕ =>
      decide (e.2 ∈ found)) (l := templates.zipIdx)).map Prod.fst
    rwa [List.zipIdx_map_fst] at hsub
  · intro t ht
    obtain ⟨i, hi⟩ := List.mem_iff_getElem?.mp ht
    rw [← hmem hi, List.mem_map]
    constructor
    · rintro ⟨e, he, rfl⟩
      have hidx := hnames.idx_eq hi (hentries e he) rfl
      rw [hidx]
      exact of_decide_eq_true (List.mem_filter.mp he).2
    · intro hmem
      exact ⟨(t, i), List.mem_filter.mpr
        ⟨List.mem_zipIdx_iff_getElem?.mpr hi, decide_eq_true hmem⟩, rfl⟩
  · intro t ht
    obtain ⟨e, he, rfl⟩ := List.mem_map.mp ht
    exact ((hmem (hentries e he)).mp (of_decide_eq_true (List.mem_filter.mp he).2)).2
  · have hget : (ContainmentIndex.new templates).nameToIdx.get query.name = some start :=
      (get_lastNamed_iff hnames).mpr ⟨query, hstart, rfl⟩
    show (match (ContainmentIndex.new templates).nameToIdx.get query.name with
      | none => .none
      | some start => (ContainmentIndex.new templates).summary
        ((ContainmentIndex.new templates).ascent start).2.2 : ContainerObjective O) = _
    rw [hget]
    dsimp only
    rw [ascent_eq]
    refine Eq.trans ?_ (summary_eq_answer hsorted hentries)
    exact congrArg _ hfound

end Climb

/-- A cycle below two bearers: `leaf` lies in `mid` and `left`, `mid` in `leaf` and `right`; both
`left` and `right` bear an objective. -/
theorem nearestContainerObjective_diamond :
    let sub (name : String) : SubComponentDecl := ⟨name, ⟨0, 0⟩⟩
    let leaf : TopologyTemplate String := ⟨⟨"leaf", [sub "mid"], false⟩, none⟩
    let templates := [⟨⟨"right", [sub "mid"], false⟩, some "stiffness"⟩, leaf,
      ⟨⟨"mid", [sub "leaf"], false⟩, none⟩, ⟨⟨"left", [sub "leaf"], false⟩, some "mass"⟩]
    (∃ bearers : List (TopologyTemplate String), bearers.Sublist templates ∧
      (∀ t ∈ templates, t ∈ bearers ↔ Bears templates leaf t) ∧
      (∀ t ∈ bearers, t.objective.isSome = true) ∧
      nearestContainerObjective leaf templates = answer bearers) ∧
    ∀ start, ((ContainmentIndex.new templates).ascent start).1 = [] :=
  nearestContainerObjective_exact (by decide) (List.mem_cons_of_mem _ List.mem_cons_self)

end Reify.ScopeContainment
