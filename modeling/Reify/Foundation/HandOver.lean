import Mathlib.Data.Finset.Card
import Mathlib.Data.Fintype.Basic
import Reify.Foundation.HashMap

/-!
# Handing over between places

What is kept in one of several places can be handed over to another, where it replaces what
is there.  Handing over never loses the last copy and never makes one more.  A loop whose
rounds each concern one key is, seen from a key, the loop over the rounds of that key.

## Main definitions

* `handOver`: the contents of the places after handing one over.
* `holders`: the places that hold something.

## Main results

* `holders_handOver_nonempty`, `card_holders_handOver_le`: nothing is lost, nothing is copied.
* `view_foldl`: a loop, seen from one key.
-/

namespace Foundation

/-! ## Places -/

section
variable {P W : Type*} [DecidableEq P]

/-- Hands what is at `src` over to `dst`, as `f` makes of it. -/
def handOver (c : P → Option W) (src dst : P) (f : W → W) : P → Option W :=
  match c src with
  | none => c
  | some w => Function.update (Function.update c src none) dst (some (f w))

variable {c : P → Option W} {src dst : P} {f : W → W}

theorem handOver_of_none (h : c src = none) : handOver c src dst f = c := by
  rw [handOver, h]

theorem handOver_of_some {w : W} (h : c src = some w) :
    handOver c src dst f = Function.update (Function.update c src none) dst (some (f w)) := by
  rw [handOver, h]

theorem handOver_dst {w : W} (h : c src = some w) : handOver c src dst f dst = some (f w) := by
  rw [handOver_of_some h]
  exact Function.update_self ..

theorem handOver_src (hne : src ≠ dst) : handOver c src dst f src = none := by
  cases hsrc : c src with
  | none => rw [handOver_of_none hsrc, hsrc]
  | some w => rw [handOver_of_some hsrc, Function.update_of_ne hne, Function.update_self]

theorem handOver_of_ne {p : P} (hsrc : p ≠ src) (hdst : p ≠ dst) : handOver c src dst f p = c p := by
  cases hw : c src with
  | none => rw [handOver_of_none hw]
  | some w => rw [handOver_of_some hw, Function.update_of_ne hdst, Function.update_of_ne hsrc]

/-- Handing over once more changes nothing. -/
theorem handOver_handOver (hne : src ≠ dst) :
    handOver (handOver c src dst f) src dst f = handOver c src dst f :=
  handOver_of_none (handOver_src hne)

/-- What is found afterwards was there before, in some place. -/
theorem exists_of_handOver {p : P} {w' : W} (h : handOver c src dst f p = some w') :
    c p = some w' ∨ ∃ w, c src = some w ∧ w' = f w := by
  cases hw : c src with
  | none =>
    rw [handOver_of_none hw] at h
    exact .inl h
  | some w =>
    by_cases hdst : p = dst
    · subst hdst
      rw [handOver_dst hw] at h
      exact .inr ⟨w, rfl, (Option.some.inj h).symm⟩
    · rw [handOver_of_some hw, Function.update_of_ne hdst] at h
      by_cases hsrc : p = src
      · subst hsrc
        rw [Function.update_self] at h
        cases h
      · rw [Function.update_of_ne hsrc] at h
        exact .inl h

variable [Fintype P]

/-- The places that hold something. -/
def holders (c : P → Option W) : Finset P := Finset.univ.filter fun p => (c p).isSome = true

omit [DecidableEq P] in
theorem mem_holders {p : P} : p ∈ holders c ↔ ∃ w, c p = some w := by
  rw [holders, Finset.mem_filter, Option.isSome_iff_exists]
  exact and_iff_right (Finset.mem_univ p)

theorem holders_handOver_nonempty (h : (holders c).Nonempty) :
    (holders (handOver c src dst f)).Nonempty := by
  cases hsrc : c src with
  | none => rwa [handOver_of_none hsrc]
  | some w => exact ⟨dst, mem_holders.2 ⟨f w, handOver_dst hsrc⟩⟩

theorem card_holders_handOver_le (hne : src ≠ dst) :
    (holders (handOver c src dst f)).card ≤ (holders c).card := by
  cases hsrc : c src with
  | none => rw [handOver_of_none hsrc]
  | some w =>
    have hsub : holders (handOver c src dst f) ⊆ insert dst ((holders c).erase src) := by
      intro p hp
      obtain ⟨w', hw'⟩ := mem_holders.1 hp
      by_cases hdst : p = dst
      · exact Finset.mem_insert.2 (.inl hdst)
      · have hp : p ≠ src := by
          rintro rfl
          rw [handOver_src hne] at hw'
          cases hw'
        rw [handOver_of_ne hp hdst] at hw'
        exact Finset.mem_insert_of_mem (Finset.mem_erase.2 ⟨hp, mem_holders.2 ⟨w', hw'⟩⟩)
    calc (holders (handOver c src dst f)).card
        ≤ (insert dst ((holders c).erase src)).card := Finset.card_le_card hsub
      _ ≤ ((holders c).erase src).card + 1 := Finset.card_insert_le _ _
      _ = (holders c).card := Finset.card_erase_add_one (mem_holders.2 ⟨w, hsrc⟩)

end

/-! ## Loops -/

section
variable {S A K D : Type*} [DecidableEq K]

/-- Where each round works on the view of its own key alone, the view of a key after the loop is
that after the rounds of the key. -/
theorem view_foldl (step : S → A → S) (view : S → K → D) (key : A → K) (round : A → D → D)
    (Inv : S → Prop) (hinv : ∀ s a, Inv s → Inv (step s a))
    (hself : ∀ s a, Inv s → view (step s a) (key a) = round a (view s (key a)))
    (hother : ∀ s a k, Inv s → k ≠ key a → view (step s a) k = view s k)
    (s : S) (hs : Inv s) (as : List A) (k : K) :
    Inv (as.foldl step s) ∧ view (as.foldl step s) k =
      (as.filter fun a => decide (key a = k)).foldl (fun d a => round a d) (view s k) := by
  induction as generalizing s with
  | nil => exact ⟨hs, rfl⟩
  | cons a as ih =>
    obtain ⟨hrest, hview⟩ := ih (step s a) (hinv s a hs)
    refine ⟨hrest, ?_⟩
    rw [List.foldl_cons, hview]
    by_cases hk : key a = k
    · subst hk
      rw [List.filter_cons_of_pos (by simp), List.foldl_cons, hself s a hs]
    · rw [List.filter_cons_of_neg (by simpa using hk), hother s a k hs (Ne.symm hk)]

/-- Where a second round of a key changes nothing, its first is all that counts. -/
theorem foldl_filter_of_idem (key : A → K) (round : K → D → D)
    (hidem : ∀ k d, round k (round k d) = round k d) (as : List A) (k : K) (d : D) :
    (as.filter fun a => decide (key a = k)).foldl (fun d a => round (key a) d) d =
      if k ∈ as.map key then round k d else d := by
  induction as generalizing d with
  | nil => rfl
  | cons a as ih =>
    by_cases hk : key a = k
    · subst hk
      rw [List.filter_cons_of_pos (by simp), List.foldl_cons, ih, hidem, ite_self,
        if_pos (by simp)]
    · rw [List.filter_cons_of_neg (by simpa using hk), ih]
      refine if_congr ?_ rfl rfl
      rw [List.map_cons, List.mem_cons]
      exact (or_iff_right (Ne.symm hk)).symm

/-- A map has at most one entry of a key. -/
theorem HashMap.filter_toList {V : Type*} (m : HashMap K V) (k : K) :
    (m.toList.filter fun e => decide (e.1 = k)) = (m.get k).toList.map fun v => (k, v) := by
  cases hget : m.get k with
  | none =>
    refine List.filter_eq_nil_iff.2 fun e he => ?_
    rw [decide_eq_true_iff]
    rintro rfl
    rw [HashMap.mem_toList_iff.1 he] at hget
    cases hget
  | some v =>
    refine List.perm_singleton.1 (((HashMap.toList_perm_of_get hget).filter _).trans ?_)
    rw [List.filter_cons_of_pos (by simp), List.filter_eq_nil_iff.2]
    intro e he
    rw [decide_eq_true_iff]
    rintro rfl
    have hmem : (m.remove e.1).get e.1 = some e.2 := HashMap.mem_toList_iff.1 he
    rw [HashMap.get_remove_self] at hmem
    cases hmem

end

end Foundation
