import Mathlib.Data.Nat.Basic

/-!
# Loops that a measure bounds

A loop takes steps until none is left.  A measure that every step decreases bounds the
number of steps, and what every step preserves holds at the end.

## Main definitions

* `loop`: the loop, with fuel.
* `Decreases`: every step decreases a measure.

## Main results

* `loop_finished`: with as much fuel as the measure, the loop ends.
* `loop_invariant`: the invariant rule.
-/

namespace Foundation

variable {S : Type*}

/-- Takes steps until there is none or the fuel is spent. -/
def loop (step : S → Option S) : Nat → S → S
  | 0, s => s
  | fuel + 1, s =>
    match step s with
    | none => s
    | some s' => loop step fuel s'

/-- Every step decreases the measure. -/
def Decreases (step : S → Option S) (measure : S → Nat) : Prop :=
  ∀ s s', step s = some s' → measure s' < measure s

variable {step : S → Option S} {measure : S → Nat}

theorem loop_of_step_eq_none {s : S} (h : step s = none) (fuel : Nat) : loop step fuel s = s := by
  cases fuel with
  | zero => rfl
  | succ fuel => rw [loop, h]

/-- Fuel up to the measure ends a loop whose steps decrease it under an invariant. -/
theorem loop_finished_of_invariant {P : S → Prop}
    (hstep : ∀ s s', P s → step s = some s' → P s' ∧ measure s' < measure s) {fuel : Nat} {s : S}
    (h : P s) (hfuel : measure s ≤ fuel) : step (loop step fuel s) = none := by
  induction fuel generalizing s with
  | zero =>
    rw [loop]
    cases hnext : step s with
    | none => rfl
    | some s' => exact absurd (hstep s s' h hnext).2 (by omega)
  | succ fuel ih =>
    rw [loop]
    cases hnext : step s with
    | none => exact hnext
    | some s' =>
      obtain ⟨h', hlt⟩ := hstep s s' h hnext
      exact ih h' (by omega)

/-- **Fuel up to the measure ends the loop.** -/
theorem loop_finished (hstep : Decreases step measure) {fuel : Nat} {s : S}
    (hfuel : measure s ≤ fuel) : step (loop step fuel s) = none :=
  @loop_finished_of_invariant _ _ _ (fun _ => True) (fun s s' _ hnext => ⟨trivial, hstep s s' hnext⟩)
    _ _ trivial hfuel

/-- **The invariant rule.** -/
theorem loop_invariant {P : S → Prop} (hstep : ∀ s s', P s → step s = some s' → P s') (fuel : Nat)
    {s : S} (h : P s) : P (loop step fuel s) := by
  induction fuel generalizing s with
  | zero => exact h
  | succ fuel ih =>
    rw [loop]
    cases hnext : step s with
    | none => exact h
    | some s' => exact ih (hstep s s' h hnext)

/-- Two steps that agree under an invariant make one loop. -/
theorem loop_congr_of_invariant {step' : S → Option S} {P : S → Prop}
    (hstep : ∀ s s', P s → step s = some s' → P s') (heq : ∀ s, P s → step' s = step s)
    (fuel : Nat) {s : S} (h : P s) : loop step' fuel s = loop step fuel s := by
  induction fuel generalizing s with
  | zero => rfl
  | succ fuel ih =>
    rw [loop, loop, heq s h]
    cases hnext : step s with
    | none => rfl
    | some s' => exact ih (hstep s s' h hnext)

/-- The measure does not grow along the loop. -/
theorem measure_loop_le (hstep : Decreases step measure) (fuel : Nat) (s : S) :
    measure (loop step fuel s) ≤ measure s := by
  refine @loop_invariant _ _ (fun s' => measure s' ≤ measure s) ?_ fuel s le_rfl
  intro s' s'' hle hnext
  exact Nat.le_trans (Nat.le_of_lt (hstep s' s'' hnext)) hle

/-- A loop that takes a first step decreases the measure. -/
theorem measure_loop_lt (hstep : Decreases step measure) {fuel : Nat} {s s' : S}
    (hnext : step s = some s') (hfuel : 0 < fuel) : measure (loop step fuel s) < measure s := by
  obtain ⟨fuel, rfl⟩ := Nat.exists_eq_succ_of_ne_zero (Nat.pos_iff_ne_zero.mp hfuel)
  rw [loop, hnext]
  exact Nat.lt_of_le_of_lt (measure_loop_le hstep fuel s') (hstep s s' hnext)

end Foundation
