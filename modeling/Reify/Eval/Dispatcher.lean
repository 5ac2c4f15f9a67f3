import Reify.Eval.RealizationCache
import Reify.Foundation.ChainSearch

/-!
# Kernel dispatch

Each kernel declares the operations it supports, and the representation each produces; a
conversion is an operation that also names the representation it reads.  A dispatch searches
breadth first for the shortest chain of conversions from an available representation to the
demanded one, and names the kernel that runs the operation there: the preferred one if it
supports the operation, else the first in the order of names.

## Main definitions

* `KernelId`, `Operation`, `CapabilityDescriptor`, `KernelRegistry`: the kernels.
* `dispatch`: the search.
* `conversionsFrom`: the conversions that are declared.

## Main results

* `dispatch_eq`: a dispatch is a search for a chain.
* `dispatch_spec`: it is sound, complete and shortest.
-/

namespace Reify

open Foundation

/-! ## Kernels -/

/-- The kernels that have a typed name. -/
inductive KernelId where
  | fidget
  | gmsh
  | manifold
  | occt
  | openVdb
deriving DecidableEq, Repr

def KernelId.asRegistryName : KernelId → String
  | fidget => "fidget"
  | gmsh => "gmsh"
  | manifold => "manifold"
  | occt => "occt"
  | openVdb => "openvdb"

def KernelId.fromRegistryName : String → Option KernelId
  | "fidget" => some fidget
  | "gmsh" => some gmsh
  | "manifold" => some manifold
  | "occt" => some occt
  | "openvdb" => some openVdb
  | _ => none

theorem KernelId.fromRegistryName_eq_some {name : String} {kernel : KernelId} :
    KernelId.fromRegistryName name = some kernel ↔ name = kernel.asRegistryName := by
  constructor
  · intro h
    unfold fromRegistryName at h
    split at h <;> cases h <;> rfl
  · rintro rfl
    cases kernel <;> rfl

/-- The operations; a conversion names the representation it reads. -/
inductive Operation where
  | booleanUnion
  | booleanDifference
  | booleanIntersection
  | primitiveBox
  | primitiveCylinder
  | primitiveSphere
  | primitiveTube
  | primitiveCone
  | primitiveWedge
  | primitiveTorus
  | primitiveHalfSpace
  | modifyFillet
  | modifyChamfer
  | modifyShell
  | modifyDraft
  | modifyThicken
  | modifyZoneSlab
  | modifyOffsetSolid
  | modifyOffsetSurface
  | modifyOffsetCurve
  | transformTranslate
  | transformRotate
  | transformScale
  | transformRotateAround
  | transformApplyTransform
  | transformAffineApply
  | patternLinear
  | patternCircular
  | patternMirror
  | patternLinear2D
  | patternArbitrary
  | sweepLoft
  | sweepExtrude
  | sweepRevolve
  | sweepSweep
  | sweepExtrudeSymmetric
  | sweepExtrudeInfinite
  | sweepSweepGuided
  | sweepLoftGuided
  | sweepPipe
  | curveLineSegment
  | curveArc
  | curveHelix
  | curveInterpCurve
  | curveBezierCurve
  | curveNurbsCurve
  | profileRectangle
  | profileCircle
  | profilePolygon
  | profileEllipse
  | surfaceNurbs
  | surface
  | convert (source : ReprKind)
deriving DecidableEq, Repr

/-- The operations that a kernel declares, each with the representation it produces. -/
structure CapabilityDescriptor where
  supports : List (Operation × ReprKind)
deriving DecidableEq, Repr

/-- Whether the table holds the pair. -/
def CapabilityDescriptor.supportsPair (d : CapabilityDescriptor) (op : Operation)
    (repr : ReprKind) : Bool :=
  d.supports.any fun entry => decide (entry.1 = op ∧ entry.2 = repr)

/-- The kernels by name, in the order of their names. -/
structure KernelRegistry where
  kernels : List (String × CapabilityDescriptor)
  sorted : kernels.Pairwise fun a b => a.1 < b.1

def KernelRegistry.get (registry : KernelRegistry) (name : String) : Option CapabilityDescriptor :=
  (registry.kernels.find? fun k => decide (k.1 = name)).map Prod.snd

/-- Whether the kernel is registered and supports the pair. -/
def kernelPragmaSatisfiable (registry : KernelRegistry) (pragmaKernel : String) (op : Operation)
    (demanded : ReprKind) : Bool :=
  (registry.get pragmaKernel).any fun d => d.supportsPair op demanded

/-! ## The search -/

/-- Stages of conversion: the kernel, and the representations it reads and produces. -/
abbrev ConversionChain := List (KernelId × ReprKind × ReprKind)

/-- The kernel that runs the operation, and the conversions before it. -/
structure DispatchPlan where
  kernel : String
  conversions : ConversionChain
deriving DecidableEq, Repr

/-- A kernel that declares a conversion has no typed name. -/
inductive DispatchPanic where
  | noKernelId (kernelName : String)
deriving DecidableEq, Repr

/-- What an expansion changes: the representations visited, and the entries pushed. -/
abbrev Expansion := HashSet ReprKind × List (ReprKind × ConversionChain)

/-- One entry of a kernel's table. -/
def expandEntry (kernelName : String) (currentRepr : ReprKind) (chain : ConversionChain)
    (s : Expansion) (entry : Operation × ReprKind) : Except DispatchPanic Expansion :=
  match entry.1 with
  | .convert source =>
    if source = currentRepr ∧ entry.2 ∉ s.1 then
      match KernelId.fromRegistryName kernelName with
      | none => .error (.noKernelId kernelName)
      | some kernel =>
        .ok (s.1.insert entry.2,
          s.2 ++ [(entry.2, chain ++ [(kernel, currentRepr, entry.2)])])
    else .ok s
  | _ => .ok s

/-- Every conversion that a kernel declares from the representation. -/
def expand (registry : KernelRegistry) (currentRepr : ReprKind) (chain : ConversionChain)
    (visited : HashSet ReprKind) : Except DispatchPanic Expansion :=
  registry.kernels.foldlM
    (fun s k => k.2.supports.foldlM (expandEntry k.1 currentRepr chain) s) (visited, [])

/-- The kernel for the operation: the preferred one if it is satisfiable, else the first. -/
def finalKernel (registry : KernelRegistry) (op : Operation) (demanded : ReprKind)
    (preferKernel : Option String) : Option String :=
  match preferKernel.filter fun name => kernelPragmaSatisfiable registry name op demanded with
  | some name => some name
  | none => (registry.kernels.find? fun k => k.2.supportsPair op demanded).map Prod.fst

/-- Pops representations until the demanded one has a kernel. -/
def dispatchLoop (registry : KernelRegistry) (op : Operation) (demanded : ReprKind)
    (preferKernel : Option String) : Nat → List (ReprKind × ConversionChain) → HashSet ReprKind →
      Except DispatchPanic (Option DispatchPlan)
  | _, [], _ => .ok none
  | 0, _ :: _, _ => .ok none
  | fuel + 1, (currentRepr, chain) :: frontier, visited =>
    match if currentRepr = demanded then finalKernel registry op demanded preferKernel else none with
    | some kernel => .ok (some ⟨kernel, chain⟩)
    | none => do
      let s ← expand registry currentRepr chain visited
      dispatchLoop registry op demanded preferKernel fuel (frontier ++ s.2) s.1

/-- The representations in their order. -/
def ReprKind.all : List ReprKind := [.bRep, .mesh, .sdf, .voxel, .volumeMesh]

theorem ReprKind.mem_all (r : ReprKind) : r ∈ ReprKind.all := by
  cases r <;> simp [ReprKind.all]

/-- The available representations in order. -/
def dispatchSeeds (available : HashSet ReprKind) : List ReprKind :=
  ReprKind.all.filter fun r => decide (r ∈ available)

/-- Every representation is pushed at most once. -/
def dispatch (registry : KernelRegistry) (op : Operation) (demanded : ReprKind)
    (available : HashSet ReprKind) (preferKernel : Option String) :
    Except DispatchPanic (Option DispatchPlan) :=
  dispatchLoop registry op demanded preferKernel ReprKind.all.length
    ((dispatchSeeds available).map fun r => (r, [])) (HashSet.ofList (dispatchSeeds available))

/-! ## A search for a chain -/

/-- The conversions that are declared from a representation, in the order they are tried. -/
def conversionsFrom (registry : KernelRegistry) (source : ReprKind) :
    List (KernelId × ReprKind) :=
  registry.kernels.flatMap fun k => k.2.supports.filterMap fun entry =>
    if entry.1 = .convert source then (KernelId.fromRegistryName k.1).map fun kernel =>
      (kernel, entry.2)
    else none

/-- Every kernel that declares a conversion has a typed name. -/
def CanonicalConversions (registry : KernelRegistry) : Prop :=
  ∀ k ∈ registry.kernels, ∀ source target, (Operation.convert source, target) ∈ k.2.supports →
    (KernelId.fromRegistryName k.1).isSome = true

theorem pushUnmarked_append {N L : Type*} [DecidableEq N] (current : N)
    (chain : List (L × N × N)) (succs succs' : List (L × N))
    (s : HashSet N × List (N × List (L × N × N))) :
    pushUnmarked current chain (succs ++ succs') s =
      pushUnmarked current chain succs' (pushUnmarked current chain succs s) := by
  induction succs generalizing s with
  | nil => rfl
  | cons succ succs ih =>
    rw [List.cons_append, pushUnmarked, pushUnmarked]
    split
    · exact ih s
    · exact ih _

/-- The table of a kernel with a typed name, or without conversions. -/
theorem foldlM_expandEntry {kernelName : String} {currentRepr : ReprKind} {chain : ConversionChain}
    (table : List (Operation × ReprKind)) (s : Expansion)
    (hname : ∀ source target, (Operation.convert source, target) ∈ table →
      (KernelId.fromRegistryName kernelName).isSome = true) :
    table.foldlM (expandEntry kernelName currentRepr chain) s =
      .ok (pushUnmarked currentRepr chain (table.filterMap fun entry =>
        if entry.1 = .convert currentRepr then (KernelId.fromRegistryName kernelName).map
          fun kernel => (kernel, entry.2) else none) s) := by
  induction table generalizing s with
  | nil => rfl
  | cons entry table ih =>
    have hrest (s : Expansion) := ih s fun source target h =>
      hname source target (List.mem_cons_of_mem entry h)
    obtain ⟨op, target⟩ := entry
    rw [List.foldlM_cons, List.filterMap_cons]
    by_cases hop : op = .convert currentRepr
    · subst hop
      obtain ⟨kernel, hkernel⟩ :=
        Option.isSome_iff_exists.mp (hname currentRepr target List.mem_cons_self)
      rw [hkernel] at hrest
      simp only [expandEntry, hkernel, if_true, Option.map_some]
      rw [pushUnmarked]
      by_cases htarget : target ∈ s.1
      · rw [if_neg (fun h => h.2 htarget), if_pos htarget]
        exact hrest s
      · rw [if_pos ⟨trivial, htarget⟩, if_neg htarget]
        exact hrest _
    · have hskip : expandEntry kernelName currentRepr chain s (op, target) = .ok s := by
        unfold expandEntry
        split
        · next source heq =>
          rw [if_neg]
          rintro ⟨rfl, -⟩
          exact hop heq
        · rfl
      rw [hskip, if_neg hop]
      exact hrest s

theorem expand_eq {registry : KernelRegistry} (hcanonical : CanonicalConversions registry)
    (currentRepr : ReprKind) (chain : ConversionChain) (visited : HashSet ReprKind) :
    expand registry currentRepr chain visited =
      .ok (pushUnmarked currentRepr chain (conversionsFrom registry currentRepr) (visited, [])) := by
  rw [expand, conversionsFrom]
  unfold CanonicalConversions at hcanonical
  generalize registry.kernels = kernels at hcanonical
  generalize (visited, ([] : List (ReprKind × ConversionChain))) = s
  induction kernels generalizing s with
  | nil => rfl
  | cons k kernels ih =>
    rw [List.foldlM_cons, List.flatMap_cons, pushUnmarked_append,
      foldlM_expandEntry k.2.supports s (hcanonical k List.mem_cons_self)]
    exact ih (fun k' hk' => hcanonical k' (List.mem_cons_of_mem k hk')) _

/-- **A dispatch is a search for a chain**, to the demanded representation where some kernel
supports the operation. -/
theorem dispatch_eq {registry : KernelRegistry} (hcanonical : CanonicalConversions registry)
    (op : Operation) (demanded : ReprKind) (available : HashSet ReprKind)
    (preferKernel : Option String) :
    dispatch registry op demanded available preferKernel =
      .ok ((chainSearch
        (fun r => decide (r = demanded) && (finalKernel registry op demanded preferKernel).isSome)
        (conversionsFrom registry) ReprKind.all.length
        ((dispatchSeeds available).map fun r => (r, []))
        (HashSet.ofList (dispatchSeeds available))).bind fun found =>
          (finalKernel registry op demanded preferKernel).map fun kernel => ⟨kernel, found.2⟩) := by
  rw [dispatch]
  generalize ReprKind.all.length = fuel
  generalize (dispatchSeeds available).map (fun r => (r, ([] : ConversionChain))) = frontier
  generalize HashSet.ofList (dispatchSeeds available) = visited
  induction fuel generalizing frontier visited with
  | zero => cases frontier <;> rfl
  | succ fuel ih =>
    rcases frontier with _ | ⟨⟨currentRepr, chain⟩, frontier⟩
    · rfl
    · rw [dispatchLoop, chainSearch, expand_eq hcanonical]
      by_cases hrepr : currentRepr = demanded
      · rw [if_pos hrepr, decide_eq_true hrepr, Bool.true_and]
        cases hfinal : finalKernel registry op demanded preferKernel with
        | some kernel => rfl
        | none =>
          simp only [hfinal] at ih
          exact ih _ _
      · rw [if_neg hrepr, decide_eq_false hrepr, Bool.false_and]
        exact ih _ _

/-! ## The kernels by name -/

theorem KernelRegistry.get_eq_some {registry : KernelRegistry} {name : String}
    {d : CapabilityDescriptor} : registry.get name = some d ↔ (name, d) ∈ registry.kernels := by
  obtain ⟨kernels, sorted⟩ := registry
  rw [get]
  induction kernels with
  | nil => simp
  | cons k kernels ih =>
    obtain ⟨hfirst, hrest⟩ := List.pairwise_cons.mp sorted
    rw [List.find?_cons]
    by_cases hname : k.1 = name
    · rw [decide_eq_true hname, Option.map_some, List.mem_cons]
      constructor
      · intro h
        exact .inl (Prod.ext hname.symm (Option.some.inj h).symm)
      · rintro (rfl | h)
        · rfl
        · -- a later name is greater
          have hlt := hfirst _ h
          rw [hname] at hlt
          exact absurd hlt (String.lt_irrefl name)
    · rw [decide_eq_false hname, List.mem_cons]
      refine (ih hrest).trans ⟨.inr, fun h => h.resolve_left ?_⟩
      rintro rfl
      exact hname rfl

/-- The named kernel is registered, and supports the pair. -/
def KernelRegistry.Supports (registry : KernelRegistry) (name : String) (op : Operation)
    (repr : ReprKind) : Prop :=
  ∃ d, registry.get name = some d ∧ (op, repr) ∈ d.supports

theorem CapabilityDescriptor.supportsPair_iff {d : CapabilityDescriptor} {op : Operation}
    {repr : ReprKind} : d.supportsPair op repr = true ↔ (op, repr) ∈ d.supports := by
  rw [supportsPair, List.any_eq_true]
  constructor
  · rintro ⟨⟨op', repr'⟩, hmem, heq⟩
    obtain ⟨rfl, rfl⟩ := of_decide_eq_true heq
    exact hmem
  · intro h
    exact ⟨(op, repr), h, decide_eq_true ⟨rfl, rfl⟩⟩

theorem kernelPragmaSatisfiable_iff {registry : KernelRegistry} {name : String} {op : Operation}
    {demanded : ReprKind} :
    kernelPragmaSatisfiable registry name op demanded = true ↔
      registry.Supports name op demanded := by
  rw [kernelPragmaSatisfiable, KernelRegistry.Supports, Option.any_eq_true]
  simp only [CapabilityDescriptor.supportsPair_iff]

/-- The conversions from a representation are those that the named kernels declare. -/
theorem mem_conversionsFrom {registry : KernelRegistry} {source target : ReprKind}
    {kernel : KernelId} :
    (kernel, target) ∈ conversionsFrom registry source ↔
      registry.Supports kernel.asRegistryName (.convert source) target := by
  rw [conversionsFrom, List.mem_flatMap]
  constructor
  · rintro ⟨⟨name, d⟩, hk, hmem⟩
    obtain ⟨⟨op, repr⟩, hentry, hsome⟩ := List.mem_filterMap.mp hmem
    split at hsome
    · next hop =>
      obtain ⟨kernel', hname, heq⟩ := Option.map_eq_some_iff.mp hsome
      obtain ⟨rfl, rfl⟩ := Prod.mk.inj heq
      obtain rfl := KernelId.fromRegistryName_eq_some.mp hname
      obtain rfl : op = .convert source := hop
      exact ⟨d, KernelRegistry.get_eq_some.mpr hk, hentry⟩
    · cases hsome
  · rintro ⟨d, hget, hentry⟩
    refine ⟨_, KernelRegistry.get_eq_some.mp hget, List.mem_filterMap.mpr ⟨_, hentry, ?_⟩⟩
    rw [if_pos rfl, KernelId.fromRegistryName_eq_some.mpr rfl]
    rfl

/-- Some kernel declares a conversion between the representations. -/
def KernelRegistry.Converts (registry : KernelRegistry) (source target : ReprKind) : Prop :=
  ∃ name, registry.Supports name (.convert source) target

theorem CanonicalConversions.converts_iff {registry : KernelRegistry}
    (hcanonical : CanonicalConversions registry) {source target : ReprKind} :
    registry.Converts source target ↔
      ∃ kernel, (kernel, target) ∈ conversionsFrom registry source := by
  constructor
  · rintro ⟨name, d, hget, hentry⟩
    obtain ⟨kernel, hkernel⟩ := Option.isSome_iff_exists.mp
      (hcanonical _ (KernelRegistry.get_eq_some.mp hget) source target hentry)
    obtain rfl := KernelId.fromRegistryName_eq_some.mp hkernel
    exact ⟨kernel, mem_conversionsFrom.mpr ⟨d, hget, hentry⟩⟩
  · rintro ⟨kernel, hmem⟩
    exact ⟨_, mem_conversionsFrom.mp hmem⟩

/-! ## The kernel for the operation -/

/-- The preferred kernel if it supports the operation, else the least that does. -/
def ChoosesKernel (registry : KernelRegistry) (op : Operation) (demanded : ReprKind)
    (preferKernel : Option String) (name : String) : Prop :=
  registry.Supports name op demanded ∧
  ((∃ preferred ∈ preferKernel, registry.Supports preferred op demanded) →
    preferKernel = some name) ∧
  ((∀ preferred ∈ preferKernel, ¬ registry.Supports preferred op demanded) →
    ∀ other, registry.Supports other op demanded → name = other ∨ name < other)

/-- Of the kernels in the order of their names, the first that supports a pair. -/
theorem find?_supportsPair {registry : KernelRegistry} {op : Operation} {demanded : ReprKind}
    {k : String × CapabilityDescriptor}
    (h : registry.kernels.find? (fun k => k.2.supportsPair op demanded) = some k) :
    registry.Supports k.1 op demanded ∧
      ∀ other, registry.Supports other op demanded → k.1 = other ∨ k.1 < other := by
  obtain ⟨hsupports, before, after, hsplit, hbefore⟩ := List.find?_eq_some_iff_append.mp h
  have hk : k ∈ registry.kernels := List.mem_of_find?_eq_some h
  refine ⟨⟨k.2, KernelRegistry.get_eq_some.mpr hk,
    CapabilityDescriptor.supportsPair_iff.mp hsupports⟩, ?_⟩
  rintro other ⟨d, hget, hentry⟩
  have hother := KernelRegistry.get_eq_some.mp hget
  rw [hsplit, List.mem_append, List.mem_cons] at hother
  rcases hother with hmem | rfl | hmem
  · have hnot := hbefore _ hmem
    rw [CapabilityDescriptor.supportsPair_iff.mpr hentry] at hnot
    cases hnot
  · exact .inl rfl
  · have hsorted := registry.sorted
    rw [hsplit] at hsorted
    have hafter := (List.pairwise_append.mp hsorted).2.1
    exact .inr ((List.pairwise_cons.mp hafter).1 _ hmem)

theorem finalKernel_eq_some {registry : KernelRegistry} {op : Operation} {demanded : ReprKind}
    {preferKernel : Option String} {name : String}
    (h : finalKernel registry op demanded preferKernel = some name) :
    ChoosesKernel registry op demanded preferKernel name := by
  unfold finalKernel at h
  split at h
  · next preferred hfilter =>
    obtain rfl := Option.some.inj h
    obtain ⟨hprefer, hsatisfiable⟩ := Option.filter_eq_some_iff.mp hfilter
    have hsupports := kernelPragmaSatisfiable_iff.mp hsatisfiable
    exact ⟨hsupports, fun _ => hprefer, fun hnot => absurd hsupports (hnot _ hprefer)⟩
  · next hfilter =>
    obtain ⟨k, hfind, rfl⟩ := Option.map_eq_some_iff.mp h
    obtain ⟨hsupports, hleast⟩ := find?_supportsPair hfind
    refine ⟨hsupports, ?_, fun _ => hleast⟩
    rintro ⟨preferred, hprefer, hpreferred⟩
    exact absurd (kernelPragmaSatisfiable_iff.mpr hpreferred)
      (Option.filter_eq_none_iff.mp hfilter preferred hprefer)

theorem finalKernel_eq_none {registry : KernelRegistry} {op : Operation} {demanded : ReprKind}
    {preferKernel : Option String} :
    finalKernel registry op demanded preferKernel = none ↔
      ∀ name, ¬ registry.Supports name op demanded := by
  constructor
  · intro h name hname
    unfold finalKernel at h
    split at h
    · cases h
    · obtain ⟨d, hget, hentry⟩ := hname
      rw [Option.map_eq_none_iff] at h
      exact List.find?_eq_none.mp h _ (KernelRegistry.get_eq_some.mp hget)
        (CapabilityDescriptor.supportsPair_iff.mpr hentry)
  · intro h
    rw [Option.eq_none_iff_forall_ne_some]
    intro name hname
    exact h name (finalKernel_eq_some hname).1

/-! ## What a dispatch returns -/

theorem mem_dispatchSeeds {available : HashSet ReprKind} {r : ReprKind} :
    r ∈ dispatchSeeds available ↔ r ∈ available := by
  rw [dispatchSeeds, List.mem_filter, decide_eq_true_iff]
  exact and_iff_right (ReprKind.mem_all r)

/-- The seeds depend on the members of the set, not on their order. -/
theorem dispatchSeeds_congr {available available' : HashSet ReprKind}
    (h : ∀ r, r ∈ available' ↔ r ∈ available) :
    dispatchSeeds available' = dispatchSeeds available := by
  apply List.filter_congr
  intro r _
  rw [decide_eq_decide]
  exact h r

/-- The seeds and what is not marked are the representations. -/
theorem dispatchSeeds_paid (available : HashSet ReprKind) :
    (dispatchSeeds available).length +
        unpaid ReprKind.all (fun _ => 1) (HashSet.ofList (dispatchSeeds available)) ≤
      ReprKind.all.length := by
  have hunmarked (r : ReprKind) :
      decide (r ∉ HashSet.ofList (dispatchSeeds available)) = !decide (r ∈ available) := by
    rw [← decide_not, decide_eq_decide, HashSet.mem_ofList, mem_dispatchSeeds]
  rw [unpaid, List.map_const', List.sum_replicate, Nat.nsmul_eq_mul, Nat.mul_one]
  simp only [hunmarked]
  exact (List.length_eq_length_filter_add _).ge

/-- The representations that some chain reaches are those that declared conversions reach. -/
theorem CanonicalConversions.reachable_iff {registry : KernelRegistry}
    (hcanonical : CanonicalConversions registry) {start target : ReprKind} :
    (∃ chain, Stages (conversionsFrom registry) start chain target) ↔
      Relation.ReflTransGen registry.Converts start target := by
  constructor
  · rintro ⟨chain, hchain⟩
    induction hchain with
    | nil => exact .refl
    | snoc _ hstage ih => exact ih.tail (hcanonical.converts_iff.mpr ⟨_, hstage⟩)
  · intro h
    induction h with
    | refl => exact ⟨[], .nil⟩
    | tail _ hstep ih =>
      obtain ⟨chain, hchain⟩ := ih
      obtain ⟨kernel, hstage⟩ := hcanonical.converts_iff.mp hstep
      exact ⟨_, hchain.snoc hstage⟩

/-- Every stage of a chain is declared by the kernel it names. -/
theorem stages_supports {registry : KernelRegistry} {start target : ReprKind}
    {chain : ConversionChain} (h : Stages (conversionsFrom registry) start chain target) :
    ∀ stage ∈ chain,
      registry.Supports stage.1.asRegistryName (.convert stage.2.1) stage.2.2 := by
  induction h with
  | nil => simp
  | snoc _ hstage ih =>
    intro stage hmem
    rcases List.mem_append.mp hmem with hmem | hmem
    · exact ih stage hmem
    · obtain rfl := List.mem_singleton.mp hmem
      exact mem_conversionsFrom.mp hstage

/-- **Dispatch is sound, complete and shortest**: there is no plan just where no kernel supports
the operation or no chain of declared conversions reaches the demanded representation; a plan's
chain is a shortest one, and its kernel is the preferred one or the least. -/
theorem dispatch_spec {registry : KernelRegistry} (hcanonical : CanonicalConversions registry)
    (op : Operation) (demanded : ReprKind) (available : HashSet ReprKind)
    (preferKernel : Option String) :
    ∃ result, dispatch registry op demanded available preferKernel = .ok result ∧
      (result = none ↔ (∀ name, ¬ registry.Supports name op demanded) ∨
        ∀ start ∈ available, ¬ Relation.ReflTransGen registry.Converts start demanded) ∧
      (∀ plan, result = some plan →
        (∃ start ∈ available, Stages (conversionsFrom registry) start plan.conversions demanded) ∧
        (∀ stage ∈ plan.conversions,
          registry.Supports stage.1.asRegistryName (.convert stage.2.1) stage.2.2) ∧
        (∀ start ∈ available, ∀ chain, Stages (conversionsFrom registry) start chain demanded →
          plan.conversions.length ≤ chain.length) ∧
        ChoosesKernel registry op demanded preferKernel plan.kernel) ∧
      ∀ available' : HashSet ReprKind, (∀ r, r ∈ available' ↔ r ∈ available) →
        dispatch registry op demanded available' preferKernel = .ok result := by
  have hlevel : Level
      (fun r => decide (r = demanded) && (finalKernel registry op demanded preferKernel).isSome)
      (conversionsFrom registry) (dispatchSeeds available)
      ((dispatchSeeds available).map fun r => (r, [])) []
      (HashSet.ofList (dispatchSeeds available)) 0 := level_seeds fun _ => HashSet.mem_ofList
  have hfuel := dispatchSeeds_paid available
  rw [← List.length_map fun r : ReprKind => (r, ([] : ConversionChain))] at hfuel
  have hfound := hlevel.chainSearch ReprKind.mem_all hfuel
  rw [List.append_nil] at hfound
  refine ⟨_, dispatch_eq hcanonical op demanded available preferKernel, ?_, ?_, ?_⟩
  · rw [← finalKernel_eq_none]
    constructor
    · intro hnone
      by_cases hfinal : finalKernel registry op demanded preferKernel = none
      · exact .inl hfinal
      refine .inr fun start hstart hreach => ?_
      obtain ⟨kernel, hkernel⟩ := Option.ne_none_iff_exists'.mp hfinal
      rw [Option.bind_eq_none_iff] at hnone
      -- the search found no chain, so no goal is reachable
      rw [Option.eq_none_iff_forall_ne_some.mpr fun found h =>
        hfinal (Option.map_eq_none_iff.mp (hnone found h))] at hfound
      obtain ⟨chain, hchain⟩ := hcanonical.reachable_iff.mpr hreach
      refine hfound demanded ?_ chain.length
        ⟨start, mem_dispatchSeeds.mpr hstart, chain, hchain, le_rfl⟩
      exact Bool.and_eq_true_iff.mpr ⟨decide_eq_true rfl, Option.isSome_iff_exists.mpr ⟨_, hkernel⟩⟩
    · rintro (hfinal | hunreached)
      · rw [hfinal]
        exact Option.bind_eq_none_iff.mpr fun _ _ => rfl
      · rw [Option.bind_eq_none_iff]
        rintro ⟨reached, chain⟩ hsearch
        rw [hsearch] at hfound
        obtain ⟨hgoal, ⟨start, hstart, hchain⟩, -⟩ := hfound
        obtain rfl : reached = demanded := of_decide_eq_true (Bool.and_eq_true_iff.mp hgoal).1
        exact absurd (hcanonical.reachable_iff.mp ⟨chain, hchain⟩)
          (hunreached start (mem_dispatchSeeds.mp hstart))
  · intro plan hplan
    obtain ⟨⟨reached, chain⟩, hsearch, hplan⟩ := Option.bind_eq_some_iff.mp hplan
    obtain ⟨kernel, hkernel, rfl⟩ := Option.map_eq_some_iff.mp hplan
    rw [hsearch] at hfound
    obtain ⟨hgoal, ⟨start, hstart, hchain⟩, hshortest⟩ := hfound
    rw [Bool.and_eq_true, decide_eq_true_iff] at hgoal
    obtain rfl : reached = demanded := hgoal.1
    refine ⟨⟨start, mem_dispatchSeeds.mp hstart, hchain⟩, stages_supports hchain, ?_,
      finalKernel_eq_some hkernel⟩
    intro start' hstart' chain' hchain'
    refine hshortest reached ?_ chain'.length
      ⟨start', mem_dispatchSeeds.mpr hstart', chain', hchain', le_rfl⟩
    exact Bool.and_eq_true_iff.mpr ⟨decide_eq_true rfl, hgoal.2⟩
  · intro available' hsame
    rw [dispatch, dispatchSeeds_congr hsame]
    exact dispatch_eq hcanonical op demanded available preferKernel

/-- Meshes from a kernel of B-reps, and volume meshes from meshes. -/
def exampleRegistry : KernelRegistry where
  kernels := [("gmsh", ⟨[(.convert .mesh, .volumeMesh), (.modifyThicken, .volumeMesh)]⟩),
    ("occt", ⟨[(.convert .bRep, .mesh), (.primitiveBox, .bRep)]⟩)]
  sorted := by decide

theorem exampleRegistry_canonical : CanonicalConversions exampleRegistry := by
  intro k hk _ _ _
  simp only [exampleRegistry, List.mem_cons, List.not_mem_nil, or_false] at hk
  rcases hk with rfl | rfl <;> rfl

/-- Two conversions lead from a B-rep to a volume mesh; the preferred kernel cannot thicken. -/
theorem dispatch_thicken :
    dispatch exampleRegistry .modifyThicken .volumeMesh (HashSet.ofList [.bRep]) (some "occt") =
      .ok (some ⟨"gmsh", [(.occt, .bRep, .mesh), (.gmsh, .mesh, .volumeMesh)]⟩) ∧
    ∀ start ∈ HashSet.ofList [ReprKind.bRep], ∀ chain,
      Stages (conversionsFrom exampleRegistry) start chain .volumeMesh → 2 ≤ chain.length := by
  have hrun : dispatch exampleRegistry .modifyThicken .volumeMesh (HashSet.ofList [.bRep])
      (some "occt") =
        .ok (some ⟨"gmsh", [(.occt, .bRep, .mesh), (.gmsh, .mesh, .volumeMesh)]⟩) := by
    rfl
  obtain ⟨result, hresult, -, hplan, -⟩ := dispatch_spec exampleRegistry_canonical .modifyThicken
    .volumeMesh (HashSet.ofList [.bRep]) (some "occt")
  obtain rfl := Except.ok.inj (hrun.symm.trans hresult)
  exact ⟨hrun, (hplan _ rfl).2.2.1⟩

end Reify
