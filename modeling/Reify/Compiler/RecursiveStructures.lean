import Mathlib.Data.List.Sort
import Reify.Core.Diagnostic
import Reify.Foundation.CycleSearch

/-!
# Recursive structures

A template refers by name to the templates of its sub-components; of several templates with one
name the first is meant.  The templates on a cycle of references are marked recursive.  Each
component of the references that holds a cycle is reported once, with a cycle through its first
member, and is returned as the set of its members' names.

## Main definitions

* `nameToIdx`, `subComponentForwardAdjacency`: the graph of the references.
* `tarjanSccVisit`, `reconstructSccCycle`: its components, and a cycle through one.
* `detectRecursiveStructures`: the detection.
* `References`: a template refers to another.

## Main results

* `tarjanSccStep_eq`: the search for components is the library's.
* `mem_adjacentTo`: the graph is that of the references.
* `detectRecursiveStructures_exact`: what is marked, returned and reported.
-/

namespace Reify.RecursiveStructures

open Foundation

/-! ## Templates -/

/-- A sub-component refers to a template by its name. -/
structure SubComponentDecl where
  structureName : String
  span : SourceSpan
deriving DecidableEq, Repr

structure TopologyTemplate where
  name : String
  subComponents : List SubComponentDecl
  isRecursive : Bool
deriving DecidableEq, Repr

/-! ## The graph of the references -/

/-- A template with its index: the first of a name is kept, a later one is reported. -/
def indexTemplate (s : HashMap String ℕ × List Diagnostic) (t : TopologyTemplate × ℕ) :
    HashMap String ℕ × List Diagnostic :=
  match s.1.get t.1.name with
  | some prevIdx =>
    (s.1, s.2 ++ [.error ("duplicate template name '" ++ t.1.name ++ "': indices " ++
      prevIdx.repr ++ " and " ++ t.2.repr)])
  | none => (s.1.insert t.1.name t.2, s.2)

/-- The index of the first template of each name, and the reports on the others. -/
def nameToIdx (templates : List TopologyTemplate) : HashMap String ℕ × List Diagnostic :=
  templates.zipIdx.foldl indexTemplate (∅, [])

/-- Drops an element that is equal to the one behind it. -/
def dedup : List ℕ → List ℕ
  | [] => []
  | [a] => [a]
  | a :: b :: rest => if a = b then dedup (b :: rest) else a :: dedup (b :: rest)

/-- The references of each template: the indices that its sub-components' names have. -/
def subComponentForwardAdjacency (templates : List TopologyTemplate)
    (nameToIdx : HashMap String ℕ) : List (List ℕ) :=
  templates.map fun t =>
    dedup ((t.subComponents.filterMap fun sub => nameToIdx.get sub.structureName).mergeSort)

/-- The row of a node. -/
def adjacentTo (adjacency : List (List ℕ)) (v : ℕ) : List ℕ := (adjacency[v]?).getD []

/-! ## Components -/

/-- One round: looks at the next neighbour of the node at the end of the path, or pops its
frame, hands its low link to the node before it, and closes its component. -/
def tarjanSccStep (succs : ℕ → List ℕ) (s : TarjanState ℕ) : Option (TarjanState ℕ) :=
  match s.work with
  | [] => none
  | ⟨node, w :: rest⟩ :: frames =>
    let s := { s with work := ⟨node, rest⟩ :: frames }
    if !s.indices.containsKey w then some (s.visit succs w)
    else if w ∈ s.onStack then
      some { s with lowlinks := s.lowlinks.insert node (min (s.low node) (s.index w)) }
    else some s
  | ⟨finishedNode, []⟩ :: frames =>
    let s := s.leave (s.low finishedNode) frames
    some (if s.low finishedNode = s.index finishedNode then s.popComponent finishedNode else s)

/-- The search from a node. -/
def tarjanSccVisit (adjacency : List (List ℕ)) (s : TarjanState ℕ) (v : ℕ) : TarjanState ℕ :=
  loop (tarjanSccStep (adjacentTo adjacency))
    (tarjanFuel (adjacentTo adjacency) (List.range adjacency.length))
    (s.visit (adjacentTo adjacency) v)

/-- The components, in the order in which they are closed. -/
def stronglyConnected (adjacency : List (List ℕ)) : List (List ℕ) :=
  ((List.range adjacency.length).foldl
    (fun s start => if s.indices.containsKey start then s else tarjanSccVisit adjacency s start)
    TarjanState.start).sccs

/-- The name of a template. -/
def nameOf (templates : List TopologyTemplate) (v : ℕ) : String :=
  ((templates[v]?).map TopologyTemplate.name).getD ""

/-- A cycle within a component, back to its first member. -/
def findCycleBackTo (start : ℕ) (sccSet : HashSet ℕ) (adjacency : List (List ℕ)) :
    Option (List ℕ) :=
  findCycle (adjacentTo adjacency) sccSet start

/-- The text of a cycle through a component's first member. -/
def reconstructSccCycle (scc : List ℕ) (adjacency : List (List ℕ))
    (templates : List TopologyTemplate) : String :=
  let start := scc.head?.getD 0
  if scc.length = 1 then nameOf templates start ++ " -> " ++ nameOf templates start
  else
    match findCycleBackTo start (HashSet.ofList scc) adjacency with
    | some cycle => " -> ".intercalate (cycle.map (nameOf templates))
    | none => " -> ".intercalate (scc.map (nameOf templates) ++ [nameOf templates start])

/-! ## The detection -/

/-- A component of several members holds a cycle; that of one member may be a self-reference. -/
def isCycle (adjacency : List (List ℕ)) (scc : List ℕ) : Bool :=
  if 1 < scc.length then true
  else scc.head?.any fun v => decide (v ∈ adjacentTo adjacency v)

/-- The references of a member to members, as labels. -/
def labelMember (templates : List TopologyTemplate) (nameToIdx : HashMap String ℕ)
    (sccSet : HashSet ℕ) (diag : Diagnostic) (v : ℕ) : Diagnostic :=
  (((templates[v]?).map TopologyTemplate.subComponents).getD []).foldl
    (fun diag sub =>
      match nameToIdx.get sub.structureName with
      | some target =>
        if target ∈ sccSet then diag.withLabel ⟨sub.span, "references " ++ sub.structureName⟩
        else diag
      | none => diag)
    diag

/-- The report on a component. -/
def cycleWarning (templates : List TopologyTemplate) (nameToIdx : HashMap String ℕ)
    (adjacency : List (List ℕ)) (scc : List ℕ) : Diagnostic :=
  scc.foldl (labelMember templates nameToIdx (HashSet.ofList scc))
    (.warning ("recursive structure cycle detected: " ++
      reconstructSccCycle scc adjacency templates))

/-- What the pass over the components gathers. -/
structure Detection where
  inCycle : HashSet ℕ
  diagnostics : List Diagnostic
  cyclicSccs : List (HashSet String)

/-- One component. -/
def detectScc (templates : List TopologyTemplate) (nameToIdx : HashMap String ℕ)
    (adjacency : List (List ℕ)) (s : Detection) (scc : List ℕ) : Detection :=
  if isCycle adjacency scc then {
    inCycle := s.inCycle.extend scc
    diagnostics := s.diagnostics ++ [cycleWarning templates nameToIdx adjacency scc]
    cyclicSccs := s.cyclicSccs ++ [HashSet.ofList (scc.map (nameOf templates))] }
  else s

/-- The templates with those on a cycle marked, the diagnostics, and the cyclic components. -/
def detectRecursiveStructures (templates : List TopologyTemplate) (diagnostics : List Diagnostic) :
    List TopologyTemplate × List Diagnostic × List (HashSet String) :=
  let (indices, duplicates) := nameToIdx templates
  let adjacency := subComponentForwardAdjacency templates indices
  let s := (stronglyConnected adjacency).foldl (detectScc templates indices adjacency)
    ⟨∅, diagnostics ++ duplicates, []⟩
  (templates.zipIdx.map fun (t, i) => if i ∈ s.inCycle then { t with isRecursive := true } else t,
    s.diagnostics, s.cyclicSccs)

/-! ## The references -/

/-- The first template of a name has the index. -/
def FirstNamed (templates : List TopologyTemplate) (name : String) (i : ℕ) : Prop :=
  templates.findIdx? (fun t => decide (t.name = name)) = some i

/-- A sub-component of the one template names the other. -/
def References (templates : List TopologyTemplate) (i j : ℕ) : Prop :=
  ∃ t, templates[i]? = some t ∧ ∃ sub ∈ t.subComponents, FirstNamed templates sub.structureName j

variable {templates : List TopologyTemplate}

/-- The first template of each name is kept. -/
theorem get_nameToIdx (templates : List TopologyTemplate) (name : String) :
    (nameToIdx templates).1.get name =
      templates.findIdx? fun t => decide (t.name = name) := by
  rw [nameToIdx]
  induction templates using List.reverseRecOn with
  | nil => rfl
  | append_singleton templates t ih =>
    rw [List.zipIdx_append, List.foldl_append, List.zipIdx_singleton, List.findIdx?_append, ← ih]
    generalize templates.zipIdx.foldl indexTemplate (∅, []) = s
    rw [List.foldl_cons, List.foldl_nil]
    unfold indexTemplate
    split
    · next prevIdx hprev =>
      by_cases hname : t.name = name
      · rw [← hname, hprev]
        rfl
      · rw [List.findIdx?_cons, decide_eq_false hname]
        cases s.1.get name <;> rfl
    · next hnew =>
      rw [HashMap.get_insert, List.findIdx?_cons]
      by_cases hname : t.name = name
      · rw [if_pos hname.symm, decide_eq_true hname, ← hname, hnew]
        rfl
      · rw [if_neg (Ne.symm hname), decide_eq_false hname]
        cases s.1.get name <;> rfl

/-- A report on a later template of a name is an error. -/
theorem severity_duplicates (templates : List TopologyTemplate) :
    ∀ d ∈ (nameToIdx templates).2, d.severity = .error := by
  rw [nameToIdx]
  induction templates using List.reverseRecOn with
  | nil => simp
  | append_singleton templates t ih =>
    rw [List.zipIdx_append, List.foldl_append, List.zipIdx_singleton, List.foldl_cons,
      List.foldl_nil]
    generalize templates.zipIdx.foldl indexTemplate (∅, []) = s at ih
    intro d hd
    unfold indexTemplate at hd
    split at hd
    · rcases List.mem_append.mp hd with hd | hd
      · exact ih d hd
      · rw [List.mem_singleton.mp hd]
        rfl
    · exact ih d hd

theorem mem_dedup {a : ℕ} {row : List ℕ} : a ∈ dedup row ↔ a ∈ row := by
  fun_induction dedup row with
  | case1 => rfl
  | case2 b => rfl
  | case3 b rest ih =>
    rw [ih]
    exact ⟨List.mem_cons_of_mem b, fun h => (List.mem_cons.mp h).elim
      (fun heq => heq ▸ List.mem_cons_self) id⟩
  | case4 b c rest hne ih => rw [List.mem_cons, ih, ← List.mem_cons]

/-- **The graph is that of the references.** -/
theorem mem_adjacentTo {i j : ℕ} :
    j ∈ adjacentTo (subComponentForwardAdjacency templates (nameToIdx templates).1) i ↔
      References templates i j := by
  rw [adjacentTo, subComponentForwardAdjacency, List.getElem?_map]
  constructor
  · intro h
    cases ht : templates[i]? with
    | none =>
      rw [ht] at h
      exact absurd h List.not_mem_nil
    | some t =>
      rw [ht, Option.map_some, Option.getD_some, mem_dedup, List.mem_mergeSort,
        List.mem_filterMap] at h
      obtain ⟨sub, hsub, hget⟩ := h
      rw [get_nameToIdx] at hget
      exact ⟨t, ht, sub, hsub, hget⟩
  · rintro ⟨t, ht, sub, hsub, hfirst⟩
    rw [ht, Option.map_some, Option.getD_some, mem_dedup, List.mem_mergeSort, List.mem_filterMap]
    exact ⟨sub, hsub, (get_nameToIdx templates sub.structureName).trans hfirst⟩

/-- What is referred to is the first of its name. -/
theorem References.firstNamed {i j : ℕ} (h : References templates i j) :
    FirstNamed templates (nameOf templates j) j := by
  obtain ⟨t, -, sub, -, hfirst⟩ := h
  obtain ⟨hlt, hname, -⟩ := List.findIdx?_eq_some_iff_getElem.mp hfirst
  have hnameOf : nameOf templates j = sub.structureName := by
    rw [nameOf, List.getElem?_eq_getElem hlt]
    exact of_decide_eq_true hname
  rw [hnameOf]
  exact hfirst

theorem References.lt {i j : ℕ} (h : References templates i j) : j < templates.length := by
  obtain ⟨t, -, sub, -, hfirst⟩ := h
  exact (List.findIdx?_eq_some_iff_getElem.mp hfirst).1

/-! ## The search for components -/

section Search

variable {succs : ℕ → List ℕ} {support : List ℕ} {segs : List (Segment ℕ)} {s : TarjanState ℕ}

/-- Leaving a node does not touch what closing its component changes. -/
theorem popComponent_leave (s : TarjanState ℕ) (low v : ℕ) (frames : List (Frame ℕ)) :
    (s.leave low frames).popComponent v = (s.popComponent v).leave low frames := by
  rcases frames with _ | ⟨p, frames⟩ <;> rfl

/-- The node that is left keeps its low link. -/
theorem low_leave {low v : ℕ} {frames : List (Frame ℕ)}
    (h : ∀ p ∈ frames.head?, p.node ≠ v) : (s.leave low frames).low v = s.low v := by
  rcases frames with _ | ⟨p, frames⟩
  · rfl
  · exact congrArg (Option.getD · 0) (HashMap.get_insert_of_ne _ _ (h p rfl).symm)

theorem tarjanSccStep_leave {v : ℕ} {frames : List (Frame ℕ)} (hwork : s.work = ⟨v, []⟩ :: frames) :
    tarjanSccStep succs s =
      some (if (s.leave (s.low v) frames).low v = (s.leave (s.low v) frames).index v then
        (s.leave (s.low v) frames).popComponent v else s.leave (s.low v) frames) := by
  unfold tarjanSccStep
  rw [hwork]

/-- **The low link is handed on before or after the component is closed.** -/
theorem tarjanSccStep_eq (h : TarjanInv succs support segs s) :
    tarjanSccStep succs s = tarjanStep succs s := by
  have hwork := h.work_eq
  match segs, h with
  | [], h =>
    unfold tarjanSccStep tarjanStep
    rw [hwork]
    rfl
  | ⟨v, seen, w :: rest, left⟩ :: segs, h =>
    unfold tarjanSccStep tarjanStep
    rw [hwork]
    rfl
  | ⟨v, seen, [], left⟩ :: segs, h =>
    have hbelow : ∀ p ∈ (segs.map Segment.frame).head?, p.node ≠ v := by
      intro p hp heq
      rw [List.head?_map] at hp
      obtain ⟨seg, hseg, rfl⟩ := Option.map_eq_some_iff.mp hp
      have hmem : seg ∈ segs := List.mem_of_head? hseg
      apply h.ne_of_mem_below (TarjanInv.node_mem_flatMap hmem)
      rw [show seg.node = v from heq]
      exact List.mem_append_right left (List.mem_singleton_self v)
    have hindex : (s.leave (s.low v) (segs.map Segment.frame)).index v = s.index v := by
      cases segs.map Segment.frame <;> rfl
    rw [tarjanStep_leave hwork, tarjanSccStep_leave hwork, low_leave hbelow, hindex]
    split
    · exact congrArg some (popComponent_leave s _ _ _)
    · rfl

end Search

/-- The successors of a node are nodes. -/
theorem adjacentTo_closed (templates : List TopologyTemplate) :
    ∀ n ∈ List.range templates.length,
      ∀ z ∈ adjacentTo (subComponentForwardAdjacency templates (nameToIdx templates).1) n,
        z ∈ List.range templates.length := by
  intro n _ z hz
  exact List.mem_range.mpr (mem_adjacentTo.mp hz).lt

/-- **The components are the library's.** -/
theorem stronglyConnected_eq_tarjan {adjacency : List (List ℕ)}
    (hclosed : ∀ n ∈ List.range adjacency.length, ∀ z ∈ adjacentTo adjacency n,
      z ∈ List.range adjacency.length) :
    stronglyConnected adjacency = tarjan (adjacentTo adjacency) (List.range adjacency.length) := by
  rw [stronglyConnected, tarjan]
  unfold tarjanSccVisit
  generalize adjacentTo adjacency = succs at hclosed
  generalize List.range adjacency.length = nodes at hclosed
  have hfold (roots : List ℕ) (s : TarjanState ℕ) (hroots : ∀ n ∈ roots, n ∈ nodes)
      (h : TarjanInv succs nodes [] s) :
      roots.foldl (fun s start => if s.indices.containsKey start then s
        else loop (tarjanSccStep succs) (tarjanFuel succs nodes) (s.visit succs start)) s =
      roots.foldl (tarjanRoot succs (tarjanFuel succs nodes)) s := by
    induction roots generalizing s with
    | nil => rfl
    | cons root roots ih =>
      have hroot := hroots root List.mem_cons_self
      have hfirst : (if s.indices.containsKey root then s
          else loop (tarjanSccStep succs) (tarjanFuel succs nodes) (s.visit succs root)) =
          tarjanRoot succs (tarjanFuel succs nodes) s root := by
        rw [tarjanRoot]
        split
        · rfl
        · next hnew =>
          refine loop_congr_of_invariant (P := fun s => ∃ segs, TarjanInv succs nodes segs s)
            ?_ ?_ _ (h.visit_root ?_ hroot)
          · rintro s s' ⟨_, h⟩ hstep
            exact (h.step hclosed hstep).1
          · rintro s ⟨_, h⟩
            exact tarjanSccStep_eq h
          rw [HashMap.containsKey, Bool.not_eq_true, Option.isSome_eq_false_iff,
            Option.isNone_iff_eq_none] at hnew
          exact hnew
      rw [List.foldl_cons, List.foldl_cons, hfirst]
      exact ih _ (fun n hn => hroots n (List.mem_cons_of_mem root hn)) (h.root hclosed hroot).1
  rw [hfold nodes .start (fun _ hn => hn) tarjanInv_start]

theorem stronglyConnected_eq (templates : List TopologyTemplate) :
    stronglyConnected (subComponentForwardAdjacency templates (nameToIdx templates).1) =
      tarjan (adjacentTo (subComponentForwardAdjacency templates (nameToIdx templates).1))
        (List.range templates.length) := by
  have hclosed := adjacentTo_closed templates
  have hlen : (subComponentForwardAdjacency templates (nameToIdx templates).1).length =
      templates.length := List.length_map _
  rw [← hlen] at hclosed ⊢
  exact stronglyConnected_eq_tarjan hclosed

/-! ## The cyclic components -/

/-- The template is on a cycle of references. -/
def OnCycle (templates : List TopologyTemplate) (i : ℕ) : Prop :=
  Relation.TransGen (References templates) i i

/-- The path goes along references, back to its start, within the component. -/
def IsClosedWalk (templates : List TopologyTemplate) (scc path : List ℕ) : Prop :=
  (∃ start inner, path = start :: (inner ++ [start])) ∧ path.IsChain (References templates) ∧
    ∀ i ∈ path, i ∈ scc

theorem succ_adjacentTo (templates : List TopologyTemplate) :
    Succ (adjacentTo (subComponentForwardAdjacency templates (nameToIdx templates).1)) =
      References templates := by
  ext i j
  exact mem_adjacentTo

/-- A component that is reported is one whose members are on cycles. -/
theorem isCycle_iff {scc : List ℕ} (h : IsComponent (References templates) scc) {i : ℕ}
    (hi : i ∈ scc) :
    isCycle (subComponentForwardAdjacency templates (nameToIdx templates).1) scc = true ↔
      OnCycle templates i := by
  rw [isCycle]
  by_cases hlen : 1 < scc.length
  · rw [if_pos hlen]
    exact ⟨fun _ => h.transGen_self hlen hi, fun _ => rfl⟩
  · obtain ⟨v, rfl⟩ : ∃ v, scc = [v] := by
      rw [← List.length_eq_one_iff]
      have hpos := List.length_pos_of_mem hi
      omega
    obtain rfl := List.mem_singleton.mp hi
    rw [if_neg hlen, List.head?_cons, Option.any_some, decide_eq_true_iff, mem_adjacentTo]
    exact ⟨.single, h.rel_self⟩

/-- **The search back to the first member of a component succeeds.** -/
theorem exists_findCycleBackTo {scc : List ℕ} (h : IsComponent (References templates) scc)
    (hlen : 1 < scc.length) {start : ℕ} (hstart : start ∈ scc) :
    ∃ path, findCycleBackTo start (HashSet.ofList scc)
        (subComponentForwardAdjacency templates (nameToIdx templates).1) = some path ∧
      IsClosedWalk templates scc path := by
  rw [← succ_adjacentTo] at h
  obtain ⟨path, hfound, hcycle⟩ := exists_findCycle h hlen hstart fun _ => HashSet.mem_ofList
  obtain ⟨inner, hclosed⟩ := hcycle.closed
  refine ⟨path, hfound, ⟨start, inner, hclosed⟩, ?_, ?_⟩
  · rw [← succ_adjacentTo]
    exact hcycle.chain
  · exact fun i hi => HashSet.mem_ofList.mp (hcycle.inside i hi)

/-- The text of a cycle is that of a closed walk. -/
theorem reconstructSccCycle_eq {scc : List ℕ} (h : IsComponent (References templates) scc)
    (hcycle : ∀ i ∈ scc, OnCycle templates i) :
    ∃ path, IsClosedWalk templates scc path ∧
      reconstructSccCycle scc (subComponentForwardAdjacency templates (nameToIdx templates).1)
        templates = " -> ".intercalate (path.map (nameOf templates)) := by
  obtain ⟨start, rest, rfl⟩ := List.exists_cons_of_ne_nil h.nonempty
  have hstart : start ∈ start :: rest := List.mem_cons_self
  unfold reconstructSccCycle
  dsimp only [List.head?_cons, Option.getD_some]
  split
  · next hone =>
    obtain rfl : rest = [] := List.length_eq_zero_iff.mp (Nat.succ.inj hone)
    have hself : References templates start start := h.rel_self (hcycle start hstart)
    refine ⟨[start, start], ⟨⟨start, [], rfl⟩, ?_, ?_⟩, ?_⟩
    · exact .cons_cons hself (List.isChain_singleton start)
    · simp
    · rw [List.map_cons, List.map_singleton, String.intercalate_cons_cons,
        String.intercalate_singleton]
  · next hmany =>
    have hlen : 1 < (start :: rest).length := by
      rw [List.length_cons] at hmany ⊢
      omega
    obtain ⟨path, hfound, hwalk⟩ := exists_findCycleBackTo h hlen hstart
    rw [hfound]
    exact ⟨path, hwalk, rfl⟩

theorem labelMember_eq (nameToIdx : HashMap String ℕ) (sccSet : HashSet ℕ) (diag : Diagnostic)
    (v : ℕ) :
    (labelMember templates nameToIdx sccSet diag v).severity = diag.severity ∧
      (labelMember templates nameToIdx sccSet diag v).message = diag.message := by
  unfold labelMember
  generalize ((templates[v]?).map TopologyTemplate.subComponents).getD [] = subs
  induction subs generalizing diag with
  | nil => exact ⟨rfl, rfl⟩
  | cons sub subs ih =>
    rw [List.foldl_cons]
    split
    · split
      · exact ih _
      · exact ih diag
    · exact ih diag

/-- The labels change neither the severity nor the message. -/
theorem cycleWarning_eq (nameToIdx : HashMap String ℕ) (adjacency : List (List ℕ))
    (scc : List ℕ) :
    (cycleWarning templates nameToIdx adjacency scc).severity = .warning ∧
      (cycleWarning templates nameToIdx adjacency scc).message =
        "recursive structure cycle detected: " ++ reconstructSccCycle scc adjacency templates := by
  unfold cycleWarning
  generalize hdiag : Diagnostic.warning ("recursive structure cycle detected: " ++
    reconstructSccCycle scc adjacency templates) = diag
  have hlabels (members : List ℕ) (diag : Diagnostic) :
      (members.foldl (labelMember templates nameToIdx (HashSet.ofList scc)) diag).severity =
          diag.severity ∧
        (members.foldl (labelMember templates nameToIdx (HashSet.ofList scc)) diag).message =
          diag.message := by
    induction members generalizing diag with
    | nil => exact ⟨rfl, rfl⟩
    | cons v members ih =>
      rw [List.foldl_cons]
      obtain ⟨hseverity, hmessage⟩ := labelMember_eq nameToIdx (HashSet.ofList scc) diag v
      exact ⟨(ih _).1.trans hseverity, (ih _).2.trans hmessage⟩
  obtain ⟨hseverity, hmessage⟩ := hlabels scc diag
  rw [hseverity, hmessage, ← hdiag]
  exact ⟨rfl, rfl⟩

/-- The pass reports the cyclic components in order. -/
theorem foldl_detectScc (nameToIdx : HashMap String ℕ) (adjacency sccs : List (List ℕ))
    (s : Detection) :
    sccs.foldl (detectScc templates nameToIdx adjacency) s = {
      inCycle := s.inCycle.extend (sccs.filter (isCycle adjacency)).flatten
      diagnostics := s.diagnostics ++
        (sccs.filter (isCycle adjacency)).map (cycleWarning templates nameToIdx adjacency)
      cyclicSccs := s.cyclicSccs ++ (sccs.filter (isCycle adjacency)).map fun scc =>
        HashSet.ofList (scc.map (nameOf templates)) } := by
  induction sccs generalizing s with
  | nil => simp [HashSet.extend]
  | cons scc sccs ih =>
    rw [List.foldl_cons, ih, detectScc, List.filter_cons]
    split
    · rw [List.flatten_cons, List.map_cons, List.map_cons, List.append_assoc, List.append_assoc,
        HashSet.extend, HashSet.extend, HashSet.extend, List.foldl_append]
      rfl
    · rfl

/-! ## What a detection says -/

/-- Templates on cycles have names of their own. -/
theorem OnCycle.firstNamed {i : ℕ} (h : OnCycle templates i) :
    FirstNamed templates (nameOf templates i) i := by
  obtain ⟨j, -, hstep⟩ := Relation.TransGen.tail'_iff.mp h
  exact hstep.firstNamed

theorem OnCycle.eq_of_nameOf_eq {i j : ℕ} (hi : OnCycle templates i) (hj : OnCycle templates j)
    (h : nameOf templates i = nameOf templates j) : i = j := by
  have hfirst := hi.firstNamed
  rw [h] at hfirst
  exact Option.some.inj (hfirst.symm.trans hj.firstNamed)

/-- The components that are reported. -/
def cyclicComponents (templates : List TopologyTemplate) : List (List ℕ) :=
  (stronglyConnected (subComponentForwardAdjacency templates (nameToIdx templates).1)).filter
    (isCycle (subComponentForwardAdjacency templates (nameToIdx templates).1))

theorem isComponent_of_mem_stronglyConnected {scc : List ℕ}
    (h : scc ∈ stronglyConnected
      (subComponentForwardAdjacency templates (nameToIdx templates).1)) :
    IsComponent (References templates) scc := by
  rw [stronglyConnected_eq] at h
  rw [← succ_adjacentTo]
  exact isComponent_of_mem_tarjan (adjacentTo_closed templates) h

theorem isComponent_of_mem_cyclicComponents {scc : List ℕ} (h : scc ∈ cyclicComponents templates) :
    IsComponent (References templates) scc :=
  isComponent_of_mem_stronglyConnected (List.mem_filter.mp h).1

theorem nodup_flatten_cyclicComponents (templates : List TopologyTemplate) :
    (cyclicComponents templates).flatten.Nodup := by
  have hnodup := nodup_flatten_tarjan (adjacentTo_closed templates)
  rw [← stronglyConnected_eq, List.nodup_flatten] at hnodup
  rw [List.nodup_flatten]
  refine ⟨fun scc hscc => hnodup.1 scc (List.mem_filter.mp hscc).1, ?_⟩
  exact hnodup.2.sublist List.filter_sublist

/-- The members of the components that are reported are the templates on cycles. -/
theorem mem_flatten_cyclicComponents {i : ℕ} :
    i ∈ (cyclicComponents templates).flatten ↔ OnCycle templates i := by
  rw [List.mem_flatten]
  constructor
  · rintro ⟨scc, hscc, hi⟩
    have hcomponent := isComponent_of_mem_cyclicComponents hscc
    exact (isCycle_iff hcomponent hi).mp (List.mem_filter.mp hscc).2
  · intro hi
    have hlt : i < templates.length := (List.findIdx?_eq_some_iff_getElem.mp hi.firstNamed).1
    have hall := (mem_flatten_tarjan (adjacentTo_closed templates)).mpr (List.mem_range.mpr hlt)
    rw [← stronglyConnected_eq] at hall
    obtain ⟨scc, hscc, hmem⟩ := List.mem_flatten.mp hall
    have hcycle := (isCycle_iff (isComponent_of_mem_stronglyConnected hscc) hmem).mpr hi
    exact ⟨scc, List.mem_filter.mpr ⟨hscc, hcycle⟩, hmem⟩

/-- The components that hold a cycle, and what the detection returns for them: the marks, a set
of names for each, and a report on each that prints a closed walk. -/
structure IsDetection (templates : List TopologyTemplate) (diagnostics : List Diagnostic)
    (result : List TopologyTemplate × List Diagnostic × List (HashSet String))
    (cyclic : List (List ℕ)) : Prop where
  component : ∀ scc ∈ cyclic, IsComponent (References templates) scc
  nodup : cyclic.flatten.Nodup
  onCycle : ∀ i, i ∈ cyclic.flatten ↔ OnCycle templates i
  names_nodup : (cyclic.flatten.map (nameOf templates)).Nodup
  length_eq : result.1.length = templates.length
  marked : ∀ (i : ℕ) t, templates[i]? = some t → ∃ marked, result.1[i]? = some marked ∧
    marked.name = t.name ∧ marked.subComponents = t.subComponents ∧
    (marked.isRecursive = true ↔ t.isRecursive = true ∨ OnCycle templates i)
  sets : List.Forall₂
    (fun set scc => ∀ name, name ∈ set ↔ ∃ i ∈ scc, nameOf templates i = name) result.2.2 cyclic
  reports : ∃ duplicates warnings, result.2.1 = diagnostics ++ duplicates ++ warnings ∧
    (∀ d ∈ duplicates, d.severity = .error) ∧
    List.Forall₂ (fun d scc => d.severity = .warning ∧
      ∃ path, IsClosedWalk templates scc path ∧
        d.message = "recursive structure cycle detected: " ++
          " -> ".intercalate (path.map (nameOf templates))) warnings cyclic
  found : ∀ scc ∈ cyclic, scc.length ≠ 1 → ∀ start ∈ scc.head?,
    (findCycleBackTo start (HashSet.ofList scc)
      (subComponentForwardAdjacency templates (nameToIdx templates).1)).isSome = true

/-- **The detection is exact.** -/
theorem detectRecursiveStructures_exact (templates : List TopologyTemplate)
    (diagnostics : List Diagnostic) :
    ∃ cyclic, IsDetection templates diagnostics
      (detectRecursiveStructures templates diagnostics) cyclic := by
  refine ⟨cyclicComponents templates, ?_⟩
  rw [detectRecursiveStructures]
  dsimp only
  rw [foldl_detectScc, ← cyclicComponents]
  constructor
  case component => exact fun scc => isComponent_of_mem_cyclicComponents
  case nodup => exact nodup_flatten_cyclicComponents templates
  case onCycle => exact fun i => mem_flatten_cyclicComponents
  case names_nodup =>
    refine (nodup_flatten_cyclicComponents templates).map_on fun i hi j hj heq => ?_
    exact (mem_flatten_cyclicComponents.mp hi).eq_of_nameOf_eq
      (mem_flatten_cyclicComponents.mp hj) heq
  case length_eq => rw [List.length_map, List.length_zipIdx]
  case marked =>
    intro i t ht
    rw [List.getElem?_map, List.getElem?_zipIdx, ht, Option.map_some, Option.map_some]
    refine ⟨_, rfl, ?_⟩
    have hmem : 0 + i ∈ (∅ : HashSet ℕ).extend (cyclicComponents templates).flatten ↔
        OnCycle templates i := by
      rw [HashSet.mem_extend, Nat.zero_add, mem_flatten_cyclicComponents]
      exact or_iff_right (HashSet.not_mem_empty i)
    split
    · next hin => exact ⟨rfl, rfl, fun _ => .inr (hmem.mp hin), fun _ => rfl⟩
    · next hout =>
      exact ⟨rfl, rfl, .inl, fun h => h.resolve_right fun hcycle => hout (hmem.mpr hcycle)⟩
  case sets =>
    rw [List.nil_append, List.forall₂_map_left_iff, List.forall₂_same]
    intro scc _ name
    rw [HashSet.mem_ofList, List.mem_map]
  case reports =>
    refine ⟨(nameToIdx templates).2, _, rfl, severity_duplicates templates, ?_⟩
    rw [List.forall₂_map_left_iff, List.forall₂_same]
    intro scc hscc
    obtain ⟨hseverity, hmessage⟩ := @cycleWarning_eq templates (nameToIdx templates).1
      (subComponentForwardAdjacency templates (nameToIdx templates).1) scc
    obtain ⟨path, hwalk, htext⟩ := reconstructSccCycle_eq
      (isComponent_of_mem_cyclicComponents hscc) fun i hi =>
        mem_flatten_cyclicComponents.mp (List.mem_flatten.mpr ⟨scc, hscc, hi⟩)
    exact ⟨hseverity, path, hwalk, htext ▸ hmessage⟩
  case found =>
    intro scc hscc hlen start hstart
    have hmem := List.mem_of_head? hstart
    have hmany : 1 < scc.length := by
      have hpos := List.length_pos_of_mem hmem
      omega
    obtain ⟨path, hfound, -⟩ :=
      exists_findCycleBackTo (isComponent_of_mem_cyclicComponents hscc) hmany hmem
    exact Option.isSome_iff_exists.mpr ⟨path, hfound⟩

end Reify.RecursiveStructures
