import Mathlib.Order.Compare

/-!
# Labelled trees in lexicographic order

Finitely branching trees, compared by their labels and then child by child, a proper
prefix of children first.  The comparison is a total order when that of the labels is.

## Main definitions

* `RoseTree`, with `map`, `labels`, `subtrees` and `cmp`.

## Main results

* `RoseTree.map_eq_of_labels`: trees agree when their shapes and their labels do.
* `RoseTree.instTransCmp`, `RoseTree.instLawfulEqCmp`: the comparison is total, and equal
  exactly on equal trees.
-/

namespace Foundation

/-- A label with a list of subtrees. -/
inductive RoseTree (α : Type*) where
  | node (label : α) (children : List (RoseTree α))

namespace RoseTree

variable {α β : Type*}

/-- A tree without children. -/
def leaf (label : α) : RoseTree α := node label []

mutual

/-- Relabels a tree. -/
def map (f : α → β) : RoseTree α → RoseTree β
  | node label children => node (f label) (mapList f children)

def mapList (f : α → β) : List (RoseTree α) → List (RoseTree β)
  | [] => []
  | t :: ts => t.map f :: mapList f ts

end

theorem mapList_eq (f : α → β) (ts : List (RoseTree α)) : mapList f ts = ts.map (map f) := by
  induction ts with
  | nil => rfl
  | cons t ts ih => rw [mapList, ih, List.map_cons]

@[simp] theorem map_node (f : α → β) (label : α) (children : List (RoseTree α)) :
    (node label children).map f = node (f label) (children.map (map f)) := by
  rw [map, mapList_eq]

@[simp] theorem map_leaf (f : α → β) (label : α) : (leaf label).map f = leaf (f label) := by
  rw [leaf, map_node, List.map_nil, leaf]

theorem leaf_inj {a b : α} : leaf a = leaf b ↔ a = b := by
  rw [leaf, leaf, node.injEq, and_iff_left rfl]

/-! ## Labels -/

mutual

/-- The labels, each before those of its subtrees. -/
def labels : RoseTree α → List α
  | node label children => label :: labelsList children

def labelsList : List (RoseTree α) → List α
  | [] => []
  | t :: ts => t.labels ++ labelsList ts

end

mutual

/-- The tree and the subtrees below it. -/
def subtrees : RoseTree α → List (RoseTree α)
  | node label children => node label children :: subtreesList children

def subtreesList : List (RoseTree α) → List (RoseTree α)
  | [] => []
  | t :: ts => t.subtrees ++ subtreesList ts

end

mutual

theorem labels_map (f : α → β) : ∀ t : RoseTree α, (t.map f).labels = t.labels.map f
  | node a as => by rw [map, labels, labels, List.map_cons, labelsList_map f as]

theorem labelsList_map (f : α → β) :
    ∀ ts : List (RoseTree α), labelsList (mapList f ts) = (labelsList ts).map f
  | [] => rfl
  | t :: ts => by rw [mapList, labelsList, labelsList, List.map_append, labels_map f t, labelsList_map f ts]

end

mutual

theorem length_labels_of_map {f : α → β} :
    ∀ s t : RoseTree α, s.map f = t.map f → s.labels.length = t.labels.length
  | node a as, node b bs, h => by
    rw [map, map, node.injEq] at h
    rw [labels, labels, List.length_cons, List.length_cons, length_labelsList_of_map as bs h.2]

theorem length_labelsList_of_map {f : α → β} :
    ∀ ss ts : List (RoseTree α), mapList f ss = mapList f ts →
      (labelsList ss).length = (labelsList ts).length
  | [], [], _ => rfl
  | [], _ :: _, h => by simp [mapList] at h
  | _ :: _, [], h => by simp [mapList] at h
  | s :: ss, t :: ts, h => by
    rw [mapList, mapList, List.cons.injEq] at h
    rw [labelsList, labelsList, List.length_append, List.length_append,
      length_labels_of_map s t h.1, length_labelsList_of_map ss ts h.2]

end

section

variable {γ δ : Type*} {f : α → β} {g : α → γ} {e : α → δ}

mutual

/-- Trees of one image under `f`, with labels that agree under `g` place by place, agree
under whatever the two determine. -/
theorem map_eq_of_labels (he : ∀ x y, f x = f y → g x = g y → e x = e y) :
    ∀ s t : RoseTree α, s.map f = t.map f → s.labels.map g = t.labels.map g → s.map e = t.map e
  | node a as, node b bs, h, hlabels => by
    rw [map, map, node.injEq] at h
    rw [labels, labels, List.map_cons, List.map_cons, List.cons.injEq] at hlabels
    rw [map, map, he a b h.1 hlabels.1, mapList_eq_of_labels he as bs h.2 hlabels.2]

theorem mapList_eq_of_labels (he : ∀ x y, f x = f y → g x = g y → e x = e y) :
    ∀ ss ts : List (RoseTree α), mapList f ss = mapList f ts →
      (labelsList ss).map g = (labelsList ts).map g → mapList e ss = mapList e ts
  | [], [], _, _ => rfl
  | [], _ :: _, h, _ => by simp [mapList] at h
  | _ :: _, [], h, _ => by simp [mapList] at h
  | s :: ss, t :: ts, h, hlabels => by
    rw [mapList, mapList, List.cons.injEq] at h
    rw [labelsList, labelsList, List.map_append, List.map_append] at hlabels
    have hlength := length_labels_of_map s t h.1
    obtain ⟨hhead, htail⟩ := List.append_inj hlabels (by rw [List.length_map, List.length_map, hlength])
    rw [mapList, mapList, map_eq_of_labels he s t h.1 hhead,
      mapList_eq_of_labels he ss ts h.2 htail]

end

end

theorem map_eq_of_map_eq {γ : Type*} {f : α → β} {e : α → γ} (he : ∀ x y, f x = f y → e x = e y)
    {s t : RoseTree α} (h : s.map f = t.map f) : s.map e = t.map e := by
  refine map_eq_of_labels (g := fun _ => ()) (fun x y hxy _ => he x y hxy) s t h ?_
  rw [List.map_const', List.map_const', length_labels_of_map s t h]

mutual

theorem map_id_eq : ∀ t : RoseTree α, t.map id = t
  | node a as => by rw [map, mapList_id_eq as, id]

theorem mapList_id_eq : ∀ ts : List (RoseTree α), mapList id ts = ts
  | [] => rfl
  | t :: ts => by rw [mapList, map_id_eq t, mapList_id_eq ts]

end

/-! ## The order -/

section

variable (c : α → α → Ordering)

mutual

/-- The lexicographic comparison. -/
def cmp : RoseTree α → RoseTree α → Ordering
  | node a as, node b bs => (c a b).then (cmpList as bs)

def cmpList : List (RoseTree α) → List (RoseTree α) → Ordering
  | [], [] => .eq
  | [], _ :: _ => .lt
  | _ :: _, [] => .gt
  | s :: ss, t :: ts => (cmp s t).then (cmpList ss ts)

end

end

variable {c : α → α → Ordering}

@[simp] theorem cmp_node (a b : α) (as bs : List (RoseTree α)) :
    cmp c (node a as) (node b bs) = (c a b).then (cmpList c as bs) := rfl

@[simp] theorem cmp_leaf (a b : α) : cmp c (leaf a) (leaf b) = c a b := by
  rw [leaf, leaf, cmp_node, cmpList, Ordering.then_eq]

mutual

theorem cmp_swap [Std.OrientedCmp c] : ∀ s t : RoseTree α, cmp c s t = (cmp c t s).swap
  | node a as, node b bs => by
    rw [cmp, cmp, Ordering.swap_then, cmpList_swap as bs, @Std.OrientedCmp.eq_swap _ c _ a b]

theorem cmpList_swap [Std.OrientedCmp c] :
    ∀ ss ts : List (RoseTree α), cmpList c ss ts = (cmpList c ts ss).swap
  | [], [] => rfl
  | [], _ :: _ => rfl
  | _ :: _, [] => rfl
  | s :: ss, t :: ts => by
    rw [cmpList, cmpList, Ordering.swap_then, cmp_swap s t, cmpList_swap ss ts]

end

/-- What comparing a first with a third says, given the comparisons with a second. -/
def Composes (x y z : Ordering) : Prop :=
  (x.isLE = true → y.isLE = true → z.isLE = true) ∧ (x = .lt → y.isLE = true → z = .lt) ∧
    (x.isLE = true → y = .lt → z = .lt)

instance (x y z : Ordering) : Decidable (Composes x y z) :=
  inferInstanceAs (Decidable (_ ∧ _ ∧ _))

theorem Composes.then : ∀ {x y z x' y' z' : Ordering}, Composes x y z → Composes x' y' z' →
    Composes (x.then x') (y.then y') (z.then z') := by
  decide

theorem composes_cmp [Std.TransCmp c] (a b d : α) : Composes (c a b) (c b d) (c a d) :=
  ⟨Std.TransCmp.isLE_trans, Std.TransCmp.lt_of_lt_of_isLE, Std.TransCmp.lt_of_isLE_of_lt⟩

mutual

theorem composes_cmp_tree [Std.TransCmp c] :
    ∀ s t u : RoseTree α, Composes (cmp c s t) (cmp c t u) (cmp c s u)
  | node a as, node b bs, node d ds => (composes_cmp a b d).then (composes_cmpList as bs ds)

theorem composes_cmpList [Std.TransCmp c] :
    ∀ ss ts us : List (RoseTree α), Composes (cmpList c ss ts) (cmpList c ts us) (cmpList c ss us)
  | [], [], [] => ⟨fun _ _ => rfl, nofun, nofun⟩
  | [], [], _ :: _ => ⟨fun _ _ => rfl, nofun, fun _ _ => rfl⟩
  | [], _ :: _, [] => ⟨fun _ => nofun, fun _ => nofun, fun _ => nofun⟩
  | [], _ :: _, _ :: _ => ⟨fun _ _ => rfl, fun _ _ => rfl, fun _ _ => rfl⟩
  | _ :: _, [], _ => ⟨nofun, nofun, nofun⟩
  | _ :: _, _ :: _, [] => ⟨fun _ => nofun, fun _ => nofun, fun _ => nofun⟩
  | s :: ss, t :: ts, u :: us => (composes_cmp_tree s t u).then (composes_cmpList ss ts us)

end

/-- The comparison is a total order up to the labels' equality. -/
instance instTransCmp [Std.TransCmp c] : Std.TransCmp (cmp c) where
  eq_swap := cmp_swap _ _
  isLE_trans {s t u} := (composes_cmp_tree s t u).1

mutual

theorem eq_of_cmp [Std.LawfulEqCmp c] : ∀ s t : RoseTree α, cmp c s t = .eq → s = t
  | node a as, node b bs, h => by
    rw [cmp, Ordering.then_eq_eq] at h
    rw [Std.LawfulEqCmp.eq_of_compare h.1, eq_of_cmpList as bs h.2]

theorem eq_of_cmpList [Std.LawfulEqCmp c] :
    ∀ ss ts : List (RoseTree α), cmpList c ss ts = .eq → ss = ts
  | [], [], _ => rfl
  | [], _ :: _, h => by cases h
  | _ :: _, [], h => by cases h
  | s :: ss, t :: ts, h => by
    rw [cmpList, Ordering.then_eq_eq] at h
    rw [eq_of_cmp s t h.1, eq_of_cmpList ss ts h.2]

end

mutual

theorem cmp_self [Std.ReflCmp c] : ∀ s : RoseTree α, cmp c s s = .eq
  | node a as => by
    rw [cmp, @Std.ReflCmp.compare_self _ c _ a, cmpList_self as]
    rfl

theorem cmpList_self [Std.ReflCmp c] : ∀ ss : List (RoseTree α), cmpList c ss ss = .eq
  | [] => rfl
  | s :: ss => by
    rw [cmpList, cmp_self s, cmpList_self ss]
    rfl

end

/-- The comparison is equal exactly on equal trees. -/
instance instLawfulEqCmp [Std.LawfulEqCmp c] : Std.LawfulEqCmp (cmp c) where
  compare_self := cmp_self _
  eq_of_compare := eq_of_cmp _ _

end RoseTree

end Foundation
