import Mathlib.Data.Fintype.Fin
import Mathlib.Data.List.Induction
import Reify.Foundation.ColourSearch
import Reify.Foundation.HashMap

/-!
# Product trees

The products of an imported assembly, addressed by name and dedupe index.  Validation checks,
in this order, that there is a root, that the references are 1-based and unique, that the
components and then the roots resolve, and that no product contains itself.

## Main definitions

* `ProductRef`, `Component`, `ProductNode`, `ProductTree`.
* `ProductTree.new`, with `indexProducts` and `checkAcyclic`.
* `ProductTree.Valid`; `ProductTree.Reports`: what each error says.

## Main results

* `ProductTree.new_spec`: validation accepts the valid lists, and reports the first violated
  condition of any other.
-/

namespace Reify

open Foundation

/-! ## Products -/

/-- The address of a product. -/
structure ProductRef where
  name : String
  dedupeIndex : UInt32
deriving DecidableEq, Repr

variable {P : Type}

/-- One occurrence of a product inside an assembly, with its placement. -/
structure Component (P : Type) where
  product : ProductRef
  instanceName : String
  location : P

/-- An assembly places components; a part owns solids. -/
inductive ProductKind (P : Type) where
  | assembly (components : List (Component P))
  | part (solidCount : UInt32)

/-- A product. -/
structure ProductNode (P : Type) where
  product : ProductRef
  kind : ProductKind P

/-- The occurrences that a product places. -/
def ProductNode.components (node : ProductNode P) : List (Component P) :=
  match node.kind with
  | .assembly components => components
  | .part _ => []

/-- Products, roots and the position of each reference. -/
structure ProductTree (P : Type) where
  products : List (ProductNode P)
  roots : List ProductRef
  positions : HashMap ProductRef ℕ

/-- Why some products make no tree. -/
inductive ProductTreeError where
  | noRoots
  | zeroDedupeIndex (product : ProductRef)
  | duplicateProduct (product : ProductRef)
  | danglingComponent (parent target : ProductRef)
  | danglingRoot (root : ProductRef)
  | cycle (product : ProductRef)
deriving DecidableEq, Repr

namespace ProductTree

/-! ## Validation -/

/-- The position of a reference. -/
def position (tree : ProductTree P) (product : ProductRef) : Option ℕ :=
  tree.positions.get product

/-- One product of the loop that assigns the positions. -/
def indexProduct (positions : HashMap ProductRef ℕ) (entry : ProductNode P × ℕ) :
    Except ProductTreeError (HashMap ProductRef ℕ) :=
  if entry.1.product.dedupeIndex = 0 then .error (.zeroDedupeIndex entry.1.product)
  else
    match positions.get entry.1.product with
    | some _ => .error (.duplicateProduct entry.1.product)
    | none => .ok (positions.insert entry.1.product entry.2)

/-- The loop that assigns the positions. -/
def indexProducts (products : List (ProductNode P)) :
    Except ProductTreeError (HashMap ProductRef ℕ) :=
  products.zipIdx.foldlM indexProduct ∅

/-- The first component, product by product, whose target is no product. -/
def danglingComponent (tree : ProductTree P) : Option (ProductRef × ProductRef) :=
  tree.products.findSome? fun node =>
    (node.components.find? fun component => (tree.position component.product).isNone).map
      fun component => (node.product, component.product)

/-- The product at a position, where it is one. -/
def indexOf (tree : ProductTree P) (product : ProductRef) : Option (Fin tree.products.length) :=
  match tree.position product with
  | some i => if h : i < tree.products.length then some ⟨i, h⟩ else none
  | none => none

/-- The products that a product places, in order; their references have been resolved. -/
def targets (tree : ProductTree P) (i : Fin tree.products.length) :
    List (Fin tree.products.length) :=
  (tree.products.get i).components.filterMap fun component => tree.indexOf component.product

/-- The search by colours over the component graph, from every product. -/
def search (tree : ProductTree P) : ColourState (Fin tree.products.length) :=
  colourSearch tree.targets (List.finRange tree.products.length)

/-- `check_acyclic`: a component that reaches a grey product closes a cycle. -/
def checkAcyclic (tree : ProductTree P) : Except ProductTreeError Unit :=
  match tree.search.found with
  | some target => .error (.cycle (tree.products.get target).product)
  | none => .ok ()

/-- Validates and builds a tree. -/
def new (products : List (ProductNode P)) (roots : List ProductRef) :
    Except ProductTreeError (ProductTree P) :=
  if roots = [] then .error .noRoots
  else do
    let positions ← indexProducts products
    let tree : ProductTree P := ⟨products, roots, positions⟩
    match tree.danglingComponent with
    | some (parent, target) => throw (.danglingComponent parent target)
    | none =>
      match tree.roots.find? fun root => (tree.position root).isNone with
      | some root => throw (.danglingRoot root)
      | none =>
        tree.checkAcyclic
        return tree

/-! ## The conditions -/

/-- The references of some products. -/
def refs (products : List (ProductNode P)) : List ProductRef := products.map ProductNode.product

/-- The references are 1-based and unique. -/
structure RefsOk (products : List (ProductNode P)) : Prop where
  oneBased : ∀ r ∈ refs products, r.dedupeIndex ≠ 0
  unique : (refs products).Nodup

/-- Every component of some products resolves in a list. -/
def ComponentsResolve (known : List ProductRef) (products : List (ProductNode P)) : Prop :=
  ∀ node ∈ products, ∀ component ∈ node.components, component.product ∈ known

/-- Every root resolves. -/
def RootsResolve (known roots : List ProductRef) : Prop := ∀ root ∈ roots, root ∈ known

/-- A product places another one. -/
def Contains (products : List (ProductNode P)) (a b : ProductRef) : Prop :=
  ∃ node ∈ products, node.product = a ∧ ∃ component ∈ node.components, component.product = b

/-- A valid product tree. -/
structure Valid (products : List (ProductNode P)) (roots : List ProductRef) : Prop where
  rooted : roots ≠ []
  refsOk : RefsOk products
  components : ComponentsResolve (refs products) products
  roots : RootsResolve (refs products) roots
  acyclic : Acyclic (Contains products)

/-- What an error says: which condition is violated and where first, and that those before it
hold. -/
def Reports (products : List (ProductNode P)) (roots : List ProductRef) :
    ProductTreeError → Prop
  | .noRoots => roots = []
  | .zeroDedupeIndex r => roots ≠ [] ∧ ∃ before node after,
      products = before ++ node :: after ∧ RefsOk before ∧
        node.product = r ∧ r.dedupeIndex = 0
  | .duplicateProduct r => roots ≠ [] ∧ ∃ before node after,
      products = before ++ node :: after ∧ RefsOk before ∧
        node.product = r ∧ r.dedupeIndex ≠ 0 ∧ r ∈ refs before
  | .danglingComponent parent target => roots ≠ [] ∧ RefsOk products ∧
      ∃ before node after, products = before ++ node :: after ∧
        ComponentsResolve (refs products) before ∧ node.product = parent ∧
        ∃ earlier component later, node.components = earlier ++ component :: later ∧
          (∀ c ∈ earlier, c.product ∈ refs products) ∧
          component.product = target ∧ target ∉ refs products
  | .danglingRoot root => roots ≠ [] ∧ RefsOk products ∧
      ComponentsResolve (refs products) products ∧
      ∃ earlier later, roots = earlier ++ root :: later ∧
        RootsResolve (refs products) earlier ∧ root ∉ refs products
  | .cycle r => roots ≠ [] ∧ RefsOk products ∧ ComponentsResolve (refs products) products ∧
      RootsResolve (refs products) roots ∧ Relation.TransGen (Contains products) r r

/-! ## Positions -/

/-- The positions are those of the references. -/
def PositionsOk (products : List (ProductNode P)) (positions : HashMap ProductRef ℕ) : Prop :=
  ∀ r i, positions.get r = some i ↔ (refs products)[i]? = some r

theorem refs_append (xs ys : List (ProductNode P)) : refs (xs ++ ys) = refs xs ++ refs ys :=
  List.map_append

theorem refsOk_concat_iff {before : List (ProductNode P)} {node : ProductNode P} :
    RefsOk (before ++ [node]) ↔
      RefsOk before ∧ node.product.dedupeIndex ≠ 0 ∧ node.product ∉ refs before := by
  constructor
  · rintro ⟨hone, hunique⟩
    rw [refs_append] at hone hunique
    have hdisjoint := List.nodup_append.mp hunique
    refine ⟨⟨fun r hr => hone r (List.mem_append_left _ hr), hdisjoint.1⟩, ?_, ?_⟩
    · exact hone _ (List.mem_append_right _ List.mem_cons_self)
    · exact fun hmem => hdisjoint.2.2 _ hmem _ List.mem_cons_self rfl
  · rintro ⟨⟨hone, hunique⟩, hzero, hnew⟩
    constructor
    · intro r hr
      rw [refs_append] at hr
      rcases List.mem_append.mp hr with hr | hr
      · exact hone r hr
      · exact List.mem_singleton.mp hr ▸ hzero
    · rw [refs_append]
      refine List.nodup_append.mpr ⟨hunique, List.nodup_singleton _, ?_⟩
      rintro a ha b hb rfl
      exact hnew (List.mem_singleton.mp hb ▸ ha)

/-- A new reference takes the next position. -/
theorem PositionsOk.insert {before : List (ProductNode P)} {node : ProductNode P}
    {positions : HashMap ProductRef ℕ} (h : PositionsOk before positions)
    (hnew : node.product ∉ refs before) :
    PositionsOk (before ++ [node]) (positions.insert node.product before.length) := by
  have hlen : (refs before).length = before.length := List.length_map _
  intro r i
  rw [HashMap.get_insert, refs_append]
  show _ ↔ (refs before ++ [node.product])[i]? = some r
  by_cases hr : r = node.product
  · subst hr
    rw [if_pos rfl, Option.some_inj]
    constructor
    · rintro rfl
      rw [← hlen, List.getElem?_concat_length]
    · intro hget
      rcases lt_trichotomy i (refs before).length with hi | hi | hi
      · rw [List.getElem?_append_left hi] at hget
        exact (hnew (List.mem_of_getElem? hget)).elim
      · omega
      · rw [List.getElem?_eq_none (by rw [List.length_append, List.length_singleton]; omega)] at hget
        cases hget
  · rw [if_neg hr, h r i]
    rcases lt_or_ge i (refs before).length with hi | hi
    · rw [List.getElem?_append_left hi]
    · rw [List.getElem?_eq_none hi, List.getElem?_append_right hi]
      refine iff_of_false nofun fun hget => ?_
      have hmem := List.mem_of_getElem? hget
      exact hr (List.mem_singleton.mp hmem)

/-- What the loop over the products ends in, after some of them. -/
def IndexOutcome (products : List (ProductNode P)) :
    Except ProductTreeError (HashMap ProductRef ℕ) → Prop
  | .ok positions => RefsOk products ∧ PositionsOk products positions
  | .error e => ∃ before node after, products = before ++ node :: after ∧ RefsOk before ∧
      ((e = .zeroDedupeIndex node.product ∧ node.product.dedupeIndex = 0) ∨
        (e = .duplicateProduct node.product ∧ node.product.dedupeIndex ≠ 0 ∧
          node.product ∈ refs before))

theorem indexOutcome_foldlM {before : List (ProductNode P)} {positions : HashMap ProductRef ℕ}
    (hrefs : RefsOk before) (hpositions : PositionsOk before positions)
    (rest : List (ProductNode P)) :
    IndexOutcome (before ++ rest)
      ((rest.zipIdx before.length).foldlM indexProduct positions) := by
  induction rest generalizing before positions with
  | nil =>
    rw [List.append_nil]
    exact ⟨hrefs, hpositions⟩
  | cons node rest ih =>
    rw [List.zipIdx_cons, List.foldlM_cons]
    have hmem : node.product ∈ refs before ↔ (positions.get node.product).isSome = true := by
      rw [Option.isSome_iff_exists, List.mem_iff_getElem?]
      simp only [hpositions node.product]
    unfold indexProduct
    dsimp only
    split_ifs with hzero
    · exact ⟨before, node, rest, rfl, hrefs, .inl ⟨rfl, hzero⟩⟩
    · rcases hget : positions.get node.product with - | i
      · have hnew : node.product ∉ refs before := by
          rw [hmem, hget]
          exact nofun
        have hrest := ih (refsOk_concat_iff.mpr ⟨hrefs, hzero, hnew⟩) (hpositions.insert hnew)
        rw [List.length_append, List.length_singleton, List.append_assoc] at hrest
        exact hrest
      · refine ⟨before, node, rest, rfl, hrefs, .inr ⟨rfl, hzero, ?_⟩⟩
        rw [hmem, hget]
        rfl

/-- The loop over the products. -/
theorem indexOutcome_indexProducts (products : List (ProductNode P)) :
    IndexOutcome products (indexProducts products) :=
  @indexOutcome_foldlM P [] ∅ ⟨nofun, List.nodup_nil⟩ (fun r i => by simp [refs]) products

section Tree

variable {tree : ProductTree P}

theorem isNone_position_iff (h : PositionsOk tree.products tree.positions) (r : ProductRef) :
    (tree.position r).isNone = true ↔ r ∉ refs tree.products := by
  rw [Option.isNone_iff_eq_none, Option.eq_none_iff_forall_ne_some, List.mem_iff_getElem?,
    not_exists]
  exact forall_congr' fun i => not_congr (h r i)

theorem indexOf_eq_some_iff (h : PositionsOk tree.products tree.positions) {r : ProductRef}
    {i : Fin tree.products.length} :
    tree.indexOf r = some i ↔ (tree.products.get i).product = r := by
  have hget : (refs tree.products)[i.val]? = some (tree.products.get i).product := by
    rw [refs, List.getElem?_map, List.getElem?_eq_getElem i.isLt]
    rfl
  have hpos := h r i.val
  rw [hget, Option.some_inj] at hpos
  rw [← hpos]
  unfold indexOf position
  rcases tree.positions.get r with - | j
  · exact iff_of_false nofun nofun
  · dsimp only
    split_ifs with hj
    · rw [Option.some_inj, Option.some_inj, Fin.ext_iff]
    · refine iff_of_false nofun fun hji => ?_
      exact hj (Option.some.inj hji ▸ i.isLt)

/-- The edges between positions are the containments. -/
theorem contains_of_mem_targets (h : PositionsOk tree.products tree.positions)
    {i j : Fin tree.products.length} (hij : j ∈ tree.targets i) :
    Contains tree.products (tree.products.get i).product (tree.products.get j).product := by
  obtain ⟨component, hcomponent, hindex⟩ := List.mem_filterMap.mp hij
  exact ⟨tree.products.get i, List.get_mem _ _, rfl, component, hcomponent,
    ((indexOf_eq_some_iff h).mp hindex).symm⟩

theorem exists_mem_targets_of_contains (h : PositionsOk tree.products tree.positions)
    (hrefs : RefsOk tree.products)
    (hcomponents : ComponentsResolve (refs tree.products) tree.products)
    {i : Fin tree.products.length} {b : ProductRef}
    (hcontains : Contains tree.products (tree.products.get i).product b) :
    ∃ j ∈ tree.targets i, (tree.products.get j).product = b := by
  obtain ⟨node, hnode, hproduct, component, hcomponent, rfl⟩ := hcontains
  -- The references are unique, so the node is the one at the position.
  obtain rfl : node = tree.products.get i :=
    List.inj_on_of_nodup_map hrefs.unique hnode (List.get_mem _ _) hproduct
  obtain ⟨target, htarget, htargetEq⟩ := List.mem_map.mp (hcomponents _ hnode component hcomponent)
  obtain ⟨j, rfl⟩ := List.mem_iff_get.mp htarget
  exact ⟨j, List.mem_filterMap.mpr ⟨component, hcomponent, (indexOf_eq_some_iff h).mpr htargetEq⟩,
    htargetEq⟩

/-- No cycle of positions means no cycle of containments. -/
theorem acyclic_contains (h : PositionsOk tree.products tree.positions)
    (hrefs : RefsOk tree.products)
    (hcomponents : ComponentsResolve (refs tree.products) tree.products)
    (hacyclic : Acyclic fun i j => j ∈ tree.targets i) : Acyclic (Contains tree.products) := by
  intro r hcycle
  -- A path of containments from a product is a path of positions.
  have hlift (i : Fin tree.products.length) {a b : ProductRef}
      (hab : Relation.TransGen (Contains tree.products) a b)
      (hi : (tree.products.get i).product = a) :
      ∃ j, Relation.TransGen (fun i j => j ∈ tree.targets i) i j ∧
        (tree.products.get j).product = b := by
    subst hi
    induction hab with
    | single hb =>
      obtain ⟨j, hj, hjb⟩ := exists_mem_targets_of_contains h hrefs hcomponents hb
      exact ⟨j, .single hj, hjb⟩
    | tail _ hbc ih =>
      obtain ⟨j, hij, rfl⟩ := ih
      obtain ⟨k, hk, hkc⟩ := exists_mem_targets_of_contains h hrefs hcomponents hbc
      exact ⟨k, hij.tail hk, hkc⟩
  obtain ⟨-, ⟨node, hnode, hproduct, -⟩, -⟩ := Relation.TransGen.head'_iff.mp hcycle
  obtain ⟨i, rfl⟩ := List.mem_iff_get.mp hnode
  obtain ⟨j, hij, hj⟩ := hlift i hcycle hproduct
  obtain rfl : j = i := by
    apply Fin.ext
    have hj' : j.val < (refs tree.products).length := by
      rw [refs, List.length_map]
      exact j.isLt
    apply (List.getElem?_inj hj' hrefs.unique).mp
    rw [refs, List.getElem?_map, List.getElem?_map, List.getElem?_eq_getElem j.isLt,
      List.getElem?_eq_getElem i.isLt]
    exact congrArg some (hj.trans hproduct.symm)
  exact hacyclic j hij

/-- The components resolve, or one is reported as the first that does not. -/
theorem danglingComponent_eq_none_iff (h : PositionsOk tree.products tree.positions) :
    tree.danglingComponent = none ↔ ComponentsResolve (refs tree.products) tree.products := by
  unfold danglingComponent ComponentsResolve
  rw [List.findSome?_eq_none_iff]
  apply forall₂_congr
  intro node _
  rw [Option.map_eq_none_iff, List.find?_eq_none]
  apply forall₂_congr
  intro component _
  rw [isNone_position_iff h, not_not]

theorem exists_of_find?_isNone (h : PositionsOk tree.products tree.positions) {A : Type}
    (ref : A → ProductRef) {xs : List A} {x : A}
    (hx : xs.find? (fun x => (tree.position (ref x)).isNone) = some x) :
    ∃ earlier later, xs = earlier ++ x :: later ∧
      (∀ y ∈ earlier, ref y ∈ refs tree.products) ∧ ref x ∉ refs tree.products := by
  obtain ⟨hdangling, earlier, later, hsplit, hearlier⟩ := List.find?_eq_some_iff_append.mp hx
  refine ⟨earlier, later, hsplit, ?_, (isNone_position_iff h _).mp hdangling⟩
  intro y hy
  have hresolved := hearlier y hy
  rw [Bool.not_eq_true', ← Bool.not_eq_true, isNone_position_iff h, not_not] at hresolved
  exact hresolved

theorem exists_of_danglingComponent (h : PositionsOk tree.products tree.positions)
    {parent target : ProductRef} (hdangling : tree.danglingComponent = some (parent, target)) :
    ∃ before node after, tree.products = before ++ node :: after ∧
      ComponentsResolve (refs tree.products) before ∧ node.product = parent ∧
      ∃ earlier component later, node.components = earlier ++ component :: later ∧
        (∀ c ∈ earlier, c.product ∈ refs tree.products) ∧
        component.product = target ∧ target ∉ refs tree.products := by
  obtain ⟨before, node, after, hsplit, hnode, hbefore⟩ :=
    List.findSome?_eq_some_iff.mp hdangling
  obtain ⟨component, hcomponent, hreport⟩ := Option.map_eq_some_iff.mp hnode
  obtain ⟨rfl, rfl⟩ := Prod.mk.inj hreport
  obtain ⟨earlier, later, hcomponents, hearlier, hlast⟩ := exists_of_find?_isNone h Component.product hcomponent
  refine ⟨before, node, after, hsplit, ?_, rfl, earlier, component, later, hcomponents, hearlier,
    rfl, hlast⟩
  intro node' hnode' component' hcomponent'
  have hnone := hbefore node' hnode'
  rw [Option.map_eq_none_iff, List.find?_eq_none] at hnone
  have hresolved := hnone component' hcomponent'
  rwa [isNone_position_iff h, not_not] at hresolved

end Tree

/-! ## What validation says -/

/-- Each report contradicts validity. -/
theorem not_valid_of_reports {products : List (ProductNode P)} {roots : List ProductRef}
    {e : ProductTreeError} (h : Reports products roots e) : ¬ Valid products roots := by
  intro hvalid
  have hone := hvalid.refsOk.oneBased
  have hunique := hvalid.refsOk.unique
  cases e with
  | noRoots => exact hvalid.rooted h
  | zeroDedupeIndex r =>
    obtain ⟨-, before, node, after, rfl, -, rfl, hzero⟩ := h
    exact hone node.product (List.mem_map_of_mem (by simp)) hzero
  | duplicateProduct r =>
    obtain ⟨-, before, node, after, rfl, -, rfl, -, hmem⟩ := h
    rw [refs_append] at hunique
    exact (List.nodup_append.mp hunique).2.2 _ hmem _ List.mem_cons_self rfl
  | danglingComponent parent target =>
    obtain ⟨-, -, before, node, after, hsplit, -, -, earlier, component, later, hcomponents, -,
      rfl, hdangling⟩ := h
    apply hdangling
    apply hvalid.components node
    · rw [hsplit]
      exact List.mem_append_right _ List.mem_cons_self
    · rw [hcomponents]
      exact List.mem_append_right _ List.mem_cons_self
  | danglingRoot root =>
    obtain ⟨-, -, -, earlier, later, rfl, -, hdangling⟩ := h
    exact hdangling (hvalid.roots root (List.mem_append_right _ List.mem_cons_self))
  | cycle r => exact hvalid.acyclic r h.2.2.2.2

/-- What validation ends in. -/
def NewOutcome (products : List (ProductNode P)) (roots : List ProductRef) :
    Except ProductTreeError (ProductTree P) → Prop
  | .ok tree => Valid products roots ∧ tree.products = products ∧ tree.roots = roots ∧
      PositionsOk products tree.positions
  | .error e => Reports products roots e

theorem newOutcome_new (products : List (ProductNode P)) (roots : List ProductRef) :
    NewOutcome products roots (new products roots) := by
  unfold new
  split_ifs with hroots
  · exact hroots
  have hindex := indexOutcome_indexProducts products
  rcases hproducts : indexProducts products with e | positions
  all_goals rw [hproducts] at hindex
  · obtain ⟨before, node, after, hsplit, hbefore, ⟨rfl, hzero⟩ | ⟨rfl, hzero, hmem⟩⟩ := hindex
    · exact ⟨hroots, before, node, after, hsplit, hbefore, rfl, hzero⟩
    · exact ⟨hroots, before, node, after, hsplit, hbefore, rfl, hzero, hmem⟩
  obtain ⟨hrefs, hpositions⟩ := hindex
  -- The tree under construction, whose lookups are right from here on.
  have hpos : PositionsOk (ProductTree.mk products roots positions).products
      (ProductTree.mk products roots positions).positions := hpositions
  show NewOutcome products roots (match (ProductTree.mk products roots positions).danglingComponent with
    | some (parent, target) => throw (.danglingComponent parent target)
    | none =>
      match roots.find? fun root => ((ProductTree.mk products roots positions).position root).isNone with
      | some root => throw (.danglingRoot root)
      | none => do
        (ProductTree.mk products roots positions).checkAcyclic
        return ProductTree.mk products roots positions)
  rcases hcomponents : (ProductTree.mk products roots positions).danglingComponent with
    - | ⟨parent, target⟩
  · have hresolve := (danglingComponent_eq_none_iff hpos).mp hcomponents
    dsimp only
    rcases hfind : roots.find? fun root =>
      ((ProductTree.mk products roots positions).position root).isNone with - | root
    · have hrootsResolve : RootsResolve (refs products) roots := by
        intro root hroot
        have hresolved := List.find?_eq_none.mp hfind root hroot
        rwa [isNone_position_iff hpos, not_not] at hresolved
      dsimp only
      unfold checkAcyclic
      rcases hsearch : (ProductTree.mk products roots positions).search.found with - | i
      · -- No grey component was found.
        refine ⟨⟨hroots, hrefs, hresolve, hrootsResolve, ?_⟩, rfl, rfl, hpositions⟩
        exact acyclic_contains hpos hrefs hresolve
          (acyclic_of_colourSearch (List.mem_finRange) hsearch)
      · refine ⟨hroots, hrefs, hresolve, hrootsResolve, ?_⟩
        exact (colourSearch_found hsearch).lift _ fun a b hab => contains_of_mem_targets hpos hab
    · obtain ⟨earlier, later, hsplit, hearlier, hdangling⟩ := exists_of_find?_isNone hpos id hfind
      exact ⟨hroots, hrefs, hresolve, earlier, later, hsplit, hearlier, hdangling⟩
  · obtain hreport := exists_of_danglingComponent hpos hcomponents
    exact ⟨hroots, hrefs, hreport⟩

/-- **Validation is exact.**  It accepts the valid lists and no others, with the products and
roots as they were and the positions of the references; it reports the first violated
condition of any other, and a reported cycle is one.  The search by colours empties its stack
or finds a cycle, and visits no product twice; where it finds no cycle it visits them all. -/
theorem new_spec (products : List (ProductNode P)) (roots : List ProductRef) :
    NewOutcome products roots (new products roots) ∧
      ((∃ tree, new products roots = .ok tree) ↔ Valid products roots) ∧
      ∀ tree : ProductTree P, (tree.search.found.isSome = true ∨ tree.search.stack = []) ∧
        (searchPushes tree.targets (List.finRange tree.products.length) .start).Nodup ∧
        (tree.checkAcyclic = .ok () → ∀ i,
          i ∈ searchPushes tree.targets (List.finRange tree.products.length) .start) := by
  have houtcome := newOutcome_new products roots
  refine ⟨houtcome, ⟨?_, ?_⟩, fun tree => ⟨?_, searchPushes_nodup, ?_⟩⟩
  · rintro ⟨tree, htree⟩
    rw [htree] at houtcome
    exact houtcome.1
  · intro hvalid
    rcases hnew : new products roots with e | tree
    · rw [hnew] at houtcome
      exact (not_valid_of_reports houtcome hvalid).elim
    · exact ⟨tree, rfl⟩
  · exact (ColourInv.start.foldl (.inr rfl) _).2.1
  · intro hok
    apply mem_searchPushes List.mem_finRange
    unfold checkAcyclic at hok
    rcases hsearch : tree.search.found with - | i
    · exact hsearch
    · rw [hsearch] at hok
      cases hok

end ProductTree

end Reify
