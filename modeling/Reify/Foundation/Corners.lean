import Mathlib.Data.EReal.Inv

/-!
# Products and quotients over a box

Over a box of extended reals a product is bounded on either side by its value at
some corner, and so is a quotient whose divisor keeps away from zero.  The corner
that bounds a quotient can be chosen so that not both of its coordinates are
infinite: there the quotient of machine numbers is defined.

## Main definitions

* `corners`: the four corners of a box.

## Main results

* `exists_corner_mul_le`, `exists_le_corner_mul`: the bounds of a product.
* `exists_corner_div_le`, `exists_le_corner_div`: the bounds of a quotient.
-/

namespace Foundation

/-- The corners of `[a, b] × [c, d]`. -/
def corners {α : Type*} (a b c d : α) : List (α × α) := [(a, c), (a, d), (b, c), (b, d)]

variable {a b c d x y : EReal}

/-! ## Products -/

/-- A product is at least its value at some corner. -/
theorem exists_corner_mul_le (hax : a ≤ x) (hxb : x ≤ b) (hcy : c ≤ y) (hyd : y ≤ d) :
    ∃ p ∈ corners a b c d, p.1 * p.2 ≤ x * y := by
  simp only [corners, List.mem_cons, List.not_mem_nil, or_false, exists_eq_or_imp, exists_eq_left]
  -- The sign of `y` picks the end of the first factor, the sign of that end the other's.
  rcases le_total 0 y with hy | hy
  · have hx : a * y ≤ x * y := mul_le_mul_of_nonneg_right hax hy
    rcases le_total 0 a with ha | ha
    · exact Or.inl ((mul_le_mul_of_nonneg_left hcy ha).trans hx)
    · have hd : a * d ≤ a * y := by
        rw [mul_comm a d, mul_comm a y]
        exact EReal.mul_le_mul_of_nonpos_right hyd ha
      exact Or.inr (Or.inl (hd.trans hx))
  · have hx : b * y ≤ x * y := EReal.mul_le_mul_of_nonpos_right hxb hy
    rcases le_total 0 b with hb | hb
    · exact Or.inr (Or.inr (Or.inl ((mul_le_mul_of_nonneg_left hcy hb).trans hx)))
    · have hd : b * d ≤ b * y := by
        rw [mul_comm b d, mul_comm b y]
        exact EReal.mul_le_mul_of_nonpos_right hyd hb
      exact Or.inr (Or.inr (Or.inr (hd.trans hx)))

/-- A product is at most its value at some corner. -/
theorem exists_le_corner_mul (hax : a ≤ x) (hxb : x ≤ b) (hcy : c ≤ y) (hyd : y ≤ d) :
    ∃ p ∈ corners a b c d, x * y ≤ p.1 * p.2 := by
  have h := exists_corner_mul_le (EReal.neg_le_neg_iff.mpr hxb) (EReal.neg_le_neg_iff.mpr hax)
    hcy hyd
  simp only [corners, List.mem_cons, List.not_mem_nil, or_false, exists_eq_or_imp, exists_eq_left,
    neg_mul, EReal.neg_le_neg_iff] at h ⊢
  tauto

/-! ## Quotients -/

/-- Neither coordinate is infinite, or only one. -/
def Determinate (p : EReal × EReal) : Prop :=
  (p.1 ≠ ⊥ ∧ p.1 ≠ ⊤) ∨ (p.2 ≠ ⊥ ∧ p.2 ≠ ⊤)

/-- A quotient by a positive divisor is at least its value at some corner. -/
theorem exists_corner_div_le_of_pos (hax : a ≤ x) (ha : a ≠ ⊤) (hc : 0 < c) (hcy : c ≤ y)
    (hyd : y ≤ d) (hy : y ≠ ⊤) :
    ∃ p ∈ corners a b c d, Determinate p ∧ p.1 / p.2 ≤ x / y := by
  have hypos : 0 < y := hc.trans_le hcy
  have hx : a / y ≤ x / y := EReal.div_le_div_right_of_nonneg hypos.le hax
  have hybot : y ≠ ⊥ := ne_bot_of_gt hypos
  have hcbot : c ≠ ⊥ := ne_bot_of_gt hc
  have hctop : c ≠ ⊤ := ne_top_of_le_ne_top hy hcy
  have hdpos : 0 < d := hypos.trans_le hyd
  rcases le_total 0 a with hapos | haneg
  · -- `a / d` is the least
    refine ⟨(a, d), by simp [corners], Or.inl ⟨ne_bot_of_le_ne_bot (by simp) hapos, ha⟩, ?_⟩
    refine le_trans ?_ hx
    rw [div_eq_mul_inv, div_eq_mul_inv]
    refine mul_le_mul_of_nonneg_left ?_ hapos
    exact EReal.inv_strictAntiOn.antitoneOn hypos hdpos hyd
  · -- `a / c` is
    refine ⟨(a, c), by simp [corners], Or.inr ⟨hcbot, hctop⟩, ?_⟩
    refine le_trans ?_ hx
    rw [div_eq_mul_inv, div_eq_mul_inv, mul_comm a, mul_comm a]
    refine EReal.mul_le_mul_of_nonpos_right ?_ haneg
    exact EReal.inv_strictAntiOn.antitoneOn hc hypos hcy

theorem neg_div_neg_eq (u v : EReal) : -u / -v = u / v := by
  rw [div_eq_mul_inv, div_eq_mul_inv, EReal.inv_neg, neg_mul_neg]

theorem Determinate.neg_left {p : EReal × EReal} (h : Determinate p) :
    Determinate (-p.1, p.2) := by
  rcases h with ⟨hbot, htop⟩ | h
  · exact Or.inl ⟨by simpa using htop, by simpa using hbot⟩
  · exact Or.inr h

theorem Determinate.neg_right {p : EReal × EReal} (h : Determinate p) :
    Determinate (p.1, -p.2) := by
  rcases h with h | ⟨hbot, htop⟩
  · exact Or.inl h
  · exact Or.inr ⟨by simpa using htop, by simpa using hbot⟩

theorem neg_mem_corners {p : EReal × EReal} (h : p ∈ corners (-b) (-a) c d) :
    (-p.1, p.2) ∈ corners a b c d := by
  simp only [corners, List.mem_cons, List.not_mem_nil, or_false] at h ⊢
  rcases h with rfl | rfl | rfl | rfl <;> simp

theorem mem_corners_neg {p : EReal × EReal} (h : p ∈ corners a b (-d) (-c)) :
    (p.1, -p.2) ∈ corners a b c d := by
  simp only [corners, List.mem_cons, List.not_mem_nil, or_false] at h ⊢
  rcases h with rfl | rfl | rfl | rfl <;> simp

section
variable (hax : a ≤ x) (hxb : x ≤ b) (ha : a ≠ ⊤) (hb : b ≠ ⊥) (hcy : c ≤ y) (hyd : y ≤ d)
  (hybot : y ≠ ⊥) (hytop : y ≠ ⊤) (hzero : 0 < c ∨ d < 0)
include hax hxb ha hb hcy hyd hybot hytop hzero

/-- A quotient is at least its value at some corner. -/
theorem exists_corner_div_le : ∃ p ∈ corners a b c d, Determinate p ∧ p.1 / p.2 ≤ x / y := by
  rcases hzero with hc | hd
  · exact exists_corner_div_le_of_pos hax ha hc hcy hyd hytop
  · -- Both signs change: the divisor becomes positive and the quotient stays.
    obtain ⟨p, hmem, hdet, hle⟩ := exists_corner_div_le_of_pos (b := -a)
      (EReal.neg_le_neg_iff.mpr hxb) (by simpa using hb) (EReal.neg_pos.mpr hd)
      (EReal.neg_le_neg_iff.mpr hyd) (EReal.neg_le_neg_iff.mpr hcy) (by simpa using hybot)
    refine ⟨(-p.1, -p.2), mem_corners_neg (neg_mem_corners hmem), ?_, ?_⟩
    · exact hdet.neg_left.neg_right
    · rw [neg_div_neg_eq] at hle ⊢
      exact hle

/-- A quotient is at most its value at some corner. -/
theorem exists_le_corner_div : ∃ p ∈ corners a b c d, Determinate p ∧ x / y ≤ p.1 / p.2 := by
  obtain ⟨p, hmem, hdet, hle⟩ := exists_corner_div_le (EReal.neg_le_neg_iff.mpr hxb)
    (EReal.neg_le_neg_iff.mpr hax) (by simpa using hb) (by simpa using ha) hcy hyd hybot hytop
    hzero
  refine ⟨(-p.1, p.2), neg_mem_corners hmem, hdet.neg_left, ?_⟩
  rw [← EReal.neg_le_neg_iff]
  simpa only [div_eq_mul_inv, neg_mul, neg_neg] using hle

end

end Foundation
