import Mathlib.Data.List.Infix

/-!
# Splitting a sequence at a delimiter

Two partial splits of a list: at the *first* occurrence of one element and at
the *last* occurrence of a word.  Each is characterised by the decomposition it
returns, so a reader of a split never unfolds the recursion.

## Main definitions

* `splitOnce`: the parts before and after the first occurrence of an element.
* `rsplitOnce`: the parts before and after the last occurrence of a word.

## Main results

* `splitOnce_eq_some_iff`, `splitOnce_eq_none_iff`.
* `rsplitOnce_eq_some_iff`, `rsplitOnce_eq_none_iff`.
* `rsplitOnce_append_cons`: a word whose first element does not recur afterwards
  is found where it was put.
-/

namespace Foundation

variable {α : Type*} [DecidableEq α]

/-! ## The first occurrence of an element -/

/-- The parts of `s` before and after its first `c`. -/
def splitOnce (c : α) : List α → Option (List α × List α)
  | [] => none
  | a :: s =>
    if a = c then some ([], s)
    else (splitOnce c s).map fun p => (a :: p.1, p.2)

theorem splitOnce_eq_some_iff {c : α} {s u v : List α} :
    splitOnce c s = some (u, v) ↔ s = u ++ c :: v ∧ c ∉ u := by
  induction s generalizing u with
  | nil => simp [splitOnce]
  | cons a s ih =>
    by_cases hac : a = c
    · subst hac
      cases u with
      | nil => simp [splitOnce, eq_comm]
      | cons b u => simp [splitOnce]; grind
    · cases u with
      | nil => simp [splitOnce, hac]
      | cons b u =>
        have hca : c ≠ a := fun h => hac h.symm
        simp only [splitOnce, if_neg hac, Option.map_eq_some_iff, Prod.exists]
        grind

theorem splitOnce_eq_none_iff {c : α} {s : List α} :
    splitOnce c s = none ↔ c ∉ s := by
  induction s with
  | nil => simp [splitOnce]
  | cons a s ih =>
    by_cases hac : a = c
    · simp [splitOnce, hac]
    · simp [splitOnce, hac, ih, Ne.symm hac]

/-- The split at an element that the first part does not contain. -/
theorem splitOnce_append_cons {c : α} {u : List α} (hu : c ∉ u) (v : List α) :
    splitOnce c (u ++ c :: v) = some (u, v) :=
  splitOnce_eq_some_iff.mpr ⟨rfl, hu⟩

/-! ## The last occurrence of a word -/

/-- The parts of `s` before and after its last occurrence of `pat`. -/
def rsplitOnce (pat : List α) : List α → Option (List α × List α)
  | [] => if pat = [] then some ([], []) else none
  | a :: s =>
    match rsplitOnce pat s with
    | some p => some (a :: p.1, p.2)
    | none => if pat <+: a :: s then some ([], (a :: s).drop pat.length) else none

theorem rsplitOnce_eq_none_iff {pat s : List α} :
    rsplitOnce pat s = none ↔ ¬ pat <:+: s := by
  induction s with
  | nil => simp [rsplitOnce]
  | cons a s ih =>
    rw [List.infix_cons_iff, rsplitOnce]
    cases h : rsplitOnce pat s with
    | none => simp [ih.mp h]
    | some p =>
      have hin : pat <:+: s := by
        by_contra hn
        simp [ih.mpr hn] at h
      simp [hin]

/-- The returned parts surround an occurrence of the word. -/
theorem eq_append_of_rsplitOnce {pat s u v : List α} (h : rsplitOnce pat s = some (u, v)) :
    s = u ++ (pat ++ v) := by
  induction s generalizing u with
  | nil =>
    by_cases hp : pat = []
    · simp_all [rsplitOnce]
    · simp [rsplitOnce, hp] at h
  | cons a s ih =>
    rw [rsplitOnce] at h
    cases hs : rsplitOnce pat s with
    | some p =>
      obtain ⟨p₁, p₂⟩ := p
      simp only [hs, Option.some.injEq, Prod.mk.injEq] at h
      obtain ⟨rfl, rfl⟩ := h
      rw [List.cons_append, ← ih hs]
    | none =>
      by_cases hp : pat <+: a :: s
      · simp only [hs, if_pos hp, Option.some.injEq, Prod.mk.injEq] at h
        obtain ⟨rfl, rfl⟩ := h
        obtain ⟨w, hw⟩ := hp
        simp [← hw]
      · simp [hs, hp] at h

/-- No occurrence of the word starts after the one the split chose. -/
theorem length_le_of_rsplitOnce {pat s u v u' v' : List α}
    (h : rsplitOnce pat s = some (u, v)) (h' : s = u' ++ (pat ++ v')) :
    u'.length ≤ u.length := by
  induction s generalizing u u' with
  | nil => simp_all
  | cons a s ih =>
    rw [rsplitOnce] at h
    cases u' with
    | nil => simp
    | cons b u' =>
      obtain ⟨-, hs'⟩ := List.cons.inj h'
      cases hs : rsplitOnce pat s with
      | some p =>
        obtain ⟨p₁, p₂⟩ := p
        simp only [hs, Option.some.injEq, Prod.mk.injEq] at h
        obtain ⟨rfl, rfl⟩ := h
        simpa using ih hs hs'
      | none =>
        exact absurd ⟨u', v', by simp [hs']⟩ (rsplitOnce_eq_none_iff.mp hs)

theorem rsplitOnce_eq_some_iff {pat s u v : List α} :
    rsplitOnce pat s = some (u, v) ↔
      s = u ++ (pat ++ v) ∧ ∀ u' v', s = u' ++ (pat ++ v') → u'.length ≤ u.length := by
  refine ⟨fun h => ⟨eq_append_of_rsplitOnce h, fun u' v' h' => length_le_of_rsplitOnce h h'⟩, ?_⟩
  rintro ⟨hs, hmax⟩
  cases h : rsplitOnce pat s with
  | none => exact absurd ⟨u, v, by simp [hs]⟩ (rsplitOnce_eq_none_iff.mp h)
  | some p =>
    have hp := eq_append_of_rsplitOnce (u := p.1) (v := p.2) h
    have hle := hmax p.1 p.2 hp
    have hge := length_le_of_rsplitOnce (u := p.1) (v := p.2) h hs
    obtain ⟨hu, hrest⟩ := List.append_inj (hp.symm.trans hs) (by omega)
    rw [← hu, ← List.append_cancel_left hrest]

/-- A word whose first element does not recur afterwards is found where it
was put. -/
theorem rsplitOnce_append_cons {c : α} {w v : List α} (hw : c ∉ w) (hv : c ∉ v) (u : List α) :
    rsplitOnce (c :: w) (u ++ (c :: w ++ v)) = some (u, v) := by
  refine rsplitOnce_eq_some_iff.mpr ⟨rfl, fun u' v' h => ?_⟩
  by_contra hlt
  -- a later occurrence would put `c` inside `w ++ v`
  obtain ⟨t, ht⟩ : u ++ [c] <+: u' := by
    have hpre : u ++ [c] <+: u' ++ (c :: w ++ v') := ⟨w ++ v, by simpa using h⟩
    exact List.prefix_of_prefix_length_le hpre (List.prefix_append u' _) (by simp; omega)
  have hmem : c ∈ w ++ v := by
    rw [← ht] at h
    have hwv : w ++ v = t ++ (c :: w ++ v') := by simpa using h
    rw [hwv]
    simp
  rcases List.mem_append.mp hmem with hcw | hcv
  · exact hw hcw
  · exact hv hcv

end Foundation
