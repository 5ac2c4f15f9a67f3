import Mathlib.Analysis.Real.Sqrt
import Reify.Constraints.Endpoint

/-!
# Closed-interval arithmetic

An interval is a pair of endpoints that is never empty and never a point at
infinity.  Each operation encloses the exact result over its operands, and each
relational inverse keeps every point of one operand's domain that produces a
result in the given range.

## Main definitions

* `Interval`, with the operations and the preimages of the source.
* `Interval.Within`: every endpoint at or inside another interval's.
* `Keeps`: a possibly empty result that is there and contains a point.

## Main results

* `mem_add`, …, `mem_max`: the operations enclose.
* `keeps_mulPreimage`, …, `keeps_maxPreimage`: the preimages keep.
-/

namespace Reify

open Foundation Endpoint

section
variable {E : Type} [Endpoint E]

/-- The endpoints are in order, and neither is infinity on the wrong side. -/
def wellFormed (lo hi : E) : Bool := le lo hi && !le inf lo && !le hi negInf

end

/-- A non-empty closed interval of the extended reals. -/
structure Interval (E : Type) [Endpoint E] where
  lo : E
  hi : E
  wf : wellFormed lo hi = true

namespace Interval

section
variable {E : Type} [Endpoint E]

/-- The interval of two endpoints, if there is one. -/
def checked (lo hi : E) : Option (Interval E) :=
  if h : wellFormed lo hi = true then some ⟨lo, hi, h⟩ else none

/-- The whole line. -/
def entire : Interval E :=
  ⟨negInf, inf, by simp [wellFormed, Endpoint.negInf_le_inf, Endpoint.not_inf_le_negInf]⟩

/-- The result of an operation; the whole line where it would not be an interval. -/
def enclosure (lo hi : E) : Interval E := (checked lo hi).getD entire

/-- `Interval::new`. -/
def new (lo hi : E) : Option (Interval E) := checked lo hi

/-- Whether the endpoint lies in the interval. -/
def contains (a : Interval E) (v : E) : Bool := le a.lo v && le v a.hi

def intersect (a b : Interval E) : Option (Interval E) :=
  checked (max a.lo b.lo) (min a.hi b.hi)

/-- The smallest interval enclosing both operands. -/
def hull (a b : Interval E) : Interval E := enclosure (min a.lo b.lo) (max a.hi b.hi)

def neg (a : Interval E) : Interval E := enclosure (Endpoint.neg a.hi) (Endpoint.neg a.lo)

def add (a b : Interval E) : Interval E :=
  enclosure (addDir a.lo b.lo .down) (addDir a.hi b.hi .up)

def sub (a b : Interval E) : Interval E := a.add b.neg

/-- The least and the greatest value at a corner; a corner without a value is skipped. -/
def cornerHull (a b : Interval E) (op : E → E → Dir → Option E) : Interval E :=
  enclosure
    ((corners a.lo a.hi b.lo b.hi).foldl
      (fun acc p => (op p.1 p.2 .down).elim acc (min acc)) inf)
    ((corners a.lo a.hi b.lo b.hi).foldl
      (fun acc p => (op p.1 p.2 .up).elim acc (max acc)) negInf)

def mul (a b : Interval E) : Interval E := cornerHull a b fun x y dir => some (mulDir x y dir)

def containsZero (a : Interval E) : Bool := a.contains zero

/-- A divisor containing zero gives the whole line. -/
def div (a b : Interval E) : Interval E :=
  if b.containsZero then entire else cornerHull a b divDir

def nonNegative : Interval E := enclosure zero inf

def abs (a : Interval E) : Interval E :=
  if le zero a.lo then a
  else if le a.hi zero then a.neg
  else enclosure zero (max (Endpoint.neg a.lo) a.hi)

def min (a b : Interval E) : Interval E :=
  enclosure (Endpoint.min a.lo b.lo) (Endpoint.min a.hi b.hi)

def max (a b : Interval E) : Interval E :=
  enclosure (Endpoint.max a.lo b.lo) (Endpoint.max a.hi b.hi)

/-- `x ^ n`; `x ^ 0` is the point one. -/
def powi (a : Interval E) (n : Nat) : Interval E :=
  if n = 0 then enclosure one one
  else if n % 2 = 0 then enclosure (powerDir a.abs.lo n .down) (powerDir a.abs.hi n .up)
  else enclosure (powerDir a.lo n .down) (powerDir a.hi n .up)

/-- The root over the part inside the domain. -/
def sqrt (a : Interval E) : Option (Interval E) := do
  let domain ← a.intersect nonNegative
  pure (enclosure (sqrtDir domain.lo .down) (sqrtDir domain.hi .up))

/-! ## Relational inverses -/

/-- The `x` whose magnitude lies in `magnitude`. -/
def symmetricPreimage (magnitude x : Interval E) : Option (Interval E) :=
  match x.intersect magnitude, x.intersect magnitude.neg with
  | some positive, some negative => some (positive.hull negative)
  | positive, negative => positive.or negative

/-- The `x` with `x ^ n ∈ z`. -/
def powiPreimage (z x : Interval E) (n : Nat) : Option (Interval E) :=
  if n = 0 then if z.contains one then some x else none
  else if n % 2 = 0 then do
    let magnitude ← z.intersect nonNegative
    symmetricPreimage (enclosure (rootDir magnitude.lo n .down) (rootDir magnitude.hi n .up)) x
  else x.intersect (enclosure (signedRootDir z.lo n .down) (signedRootDir z.hi n .up))

/-- The `x` with `√x ∈ z`. -/
def sqrtPreimage (z x : Interval E) : Option (Interval E) := do
  let roots ← z.intersect nonNegative
  x.intersect (roots.powi 2)

/-- The `x` with `|x| ∈ z`. -/
def absPreimage (z x : Interval E) : Option (Interval E) := do
  let magnitude ← z.intersect nonNegative
  symmetricPreimage magnitude x

/-- The `x` with `x * y ∈ z`. -/
def mulPreimage (z x y : Interval E) : Option (Interval E) := x.intersect (z.div y)

/-- The numerator `x` with `x / y ∈ z`. -/
def divNumeratorPreimage (z x y : Interval E) : Option (Interval E) := x.intersect (z.mul y)

/-- The denominator `y` with `x / y ∈ z`. -/
def divDenominatorPreimage (z y x : Interval E) : Option (Interval E) := y.intersect (x.div z)

/-- The `x` with `min x y ∈ z`. -/
def minPreimage (z x y : Interval E) : Option (Interval E) := do
  let floored ← x.intersect (enclosure z.lo inf)
  if lt z.hi y.lo then floored.intersect z else pure floored

/-- The `x` with `max x y ∈ z`. -/
def maxPreimage (z x y : Interval E) : Option (Interval E) := do
  let capped ← x.intersect (enclosure negInf z.hi)
  if lt y.hi z.lo then capped.intersect z else pure capped

end

/-! ## Membership -/

section
variable {E : Type} [Endpoint E] [LawfulEndpoint E]

open LawfulEndpoint

instance : Membership ℝ (Interval E) where
  mem a x := val a.lo ≤ x ∧ x ≤ val a.hi

theorem mem_def {a : Interval E} {x : ℝ} : x ∈ a ↔ val a.lo ≤ x ∧ x ≤ val a.hi := Iff.rfl

/-- Every endpoint lies at or inside the other interval's. -/
def Within (a b : Interval E) : Prop := val b.lo ≤ val a.lo ∧ val a.hi ≤ val b.hi

theorem Within.refl (a : Interval E) : a.Within a := ⟨le_rfl, le_rfl⟩

theorem Within.trans {a b c : Interval E} (hab : a.Within b) (hbc : b.Within c) : a.Within c :=
  ⟨hbc.1.trans hab.1, hab.2.trans hbc.2⟩

/-- The result is there and contains the point. -/
def Keeps (r : Option (Interval E)) (x : ℝ) : Prop := ∃ c, r = some c ∧ x ∈ c

theorem lo_ne_top (a : Interval E) : val a.lo ≠ ⊤ := by
  have h := a.wf
  simp only [wellFormed, Bool.and_eq_true, Bool.not_eq_true', ← Bool.not_eq_true] at h
  intro htop
  exact h.1.2 ((Endpoint.le_iff _ _).mpr (by rw [val_inf, htop]))

theorem hi_ne_bot (a : Interval E) : val a.hi ≠ ⊥ := by
  have h := a.wf
  simp only [wellFormed, Bool.and_eq_true, Bool.not_eq_true', ← Bool.not_eq_true] at h
  intro hbot
  exact h.2 ((Endpoint.le_iff _ _).mpr (by rw [val_negInf, hbot]))

/-- Endpoints around a real number are those of an interval. -/
theorem checked_of_mem {lo hi : E} {x : ℝ} (hlo : val lo ≤ x) (hhi : x ≤ val hi) :
    ∃ h, checked lo hi = some ⟨lo, hi, h⟩ := by
  have hwf : wellFormed lo hi = true := by
    simp only [wellFormed, Bool.and_eq_true, Bool.not_eq_true', ← Bool.not_eq_true,
      Endpoint.le_iff, val_inf, val_negInf, not_le]
    exact ⟨⟨hlo.trans hhi, hlo.trans_lt (EReal.coe_lt_top x)⟩, (EReal.bot_lt_coe x).trans_le hhi⟩
  exact ⟨hwf, dif_pos hwf⟩

theorem mem_entire (x : ℝ) : x ∈ (entire : Interval E) :=
  ⟨by rw [entire, val_negInf]; exact bot_le, by rw [entire, val_inf]; exact le_top⟩

theorem mem_enclosure {lo hi : E} {x : ℝ} (hlo : val lo ≤ x) (hhi : x ≤ val hi) :
    x ∈ enclosure lo hi := by
  obtain ⟨h, heq⟩ := checked_of_mem hlo hhi
  rw [enclosure, heq]
  exact ⟨hlo, hhi⟩

theorem keeps_intersect {a b : Interval E} {x : ℝ} (ha : x ∈ a) (hb : x ∈ b) :
    Keeps (a.intersect b) x := by
  have hlo : val (Endpoint.max a.lo b.lo) ≤ x := by
    rw [val_max]
    exact max_le ha.1 hb.1
  have hhi : (x : EReal) ≤ val (Endpoint.min a.hi b.hi) := by
    rw [val_min]
    exact le_min ha.2 hb.2
  obtain ⟨h, heq⟩ := checked_of_mem hlo hhi
  exact ⟨⟨_, _, h⟩, heq, hlo, hhi⟩

/-- An intersection lies inside its first operand. -/
theorem within_of_intersect {a b c : Interval E} (h : a.intersect b = some c) : c.Within a := by
  rw [intersect, checked] at h
  split at h
  · cases h
    constructor
    · rw [val_max]
      exact le_max_left _ _
    · rw [val_min]
      exact min_le_left _ _
  · cases h

theorem Keeps.bind {r : Option (Interval E)} {f : Interval E → Option (Interval E)} {x y : ℝ}
    (hr : Keeps r x) (hf : ∀ c, x ∈ c → Keeps (f c) y) : Keeps (r >>= f) y := by
  obtain ⟨c, rfl, hc⟩ := hr
  exact hf c hc

/-! ## The operations enclose -/

variable {a b z : Interval E} {x y : ℝ}

theorem mem_hull_left (hx : x ∈ a) : x ∈ a.hull b := by
  refine mem_enclosure ?_ ?_
  · rw [val_min]
    exact (min_le_left _ _).trans hx.1
  · rw [val_max]
    exact hx.2.trans (le_max_left _ _)

theorem mem_hull_right (hx : x ∈ b) : x ∈ a.hull b := by
  refine mem_enclosure ?_ ?_
  · rw [val_min]
    exact (min_le_right _ _).trans hx.1
  · rw [val_max]
    exact hx.2.trans (le_max_right _ _)

theorem mem_neg (hx : x ∈ a) : -x ∈ a.neg := by
  refine mem_enclosure ?_ ?_ <;> rw [LawfulEndpoint.val_neg, EReal.coe_neg, EReal.neg_le_neg_iff]
  · exact hx.2
  · exact hx.1

theorem mem_add (hx : x ∈ a) (hy : y ∈ b) : x + y ∈ a.add b := by
  refine mem_enclosure ?_ ?_
  · exact (addDir_bounds a.lo b.lo .down).trans (add_le_add hx.1 hy.1)
  · exact (add_le_add hx.2 hy.2).trans (addDir_bounds a.hi b.hi .up)

theorem mem_sub (hx : x ∈ a) (hy : y ∈ b) : x - y ∈ a.sub b := by
  rw [sub_eq_add_neg]
  exact mem_add hx (mem_neg hy)

/-! ### Corner hulls -/

theorem foldl_min_le {α : Type} (f : α → Option E) (ps : List α) (acc : E) :
    val (ps.foldl (fun acc p => (f p).elim acc (Endpoint.min acc)) acc) ≤ val acc ∧
      ∀ p ∈ ps, ∀ q, f p = some q →
        val (ps.foldl (fun acc p => (f p).elim acc (Endpoint.min acc)) acc) ≤ val q := by
  induction ps generalizing acc with
  | nil => exact ⟨le_rfl, by simp⟩
  | cons p ps ih =>
    rw [List.foldl_cons]
    cases hp : f p with
    | none =>
      refine ⟨(ih acc).1, ?_⟩
      intro p' hp' q hq
      rcases List.mem_cons.mp hp' with rfl | hmem
      · rw [hp] at hq
        cases hq
      · exact (ih acc).2 p' hmem q hq
    | some v =>
      obtain ⟨hacc, hrest⟩ := ih (Endpoint.min acc v)
      rw [val_min] at hacc
      refine ⟨hacc.trans (min_le_left _ _), ?_⟩
      intro p' hp' q hq
      rcases List.mem_cons.mp hp' with rfl | hmem
      · rw [hp] at hq
        cases hq
        exact hacc.trans (min_le_right _ _)
      · exact hrest p' hmem q hq

theorem le_foldl_max {α : Type} (f : α → Option E) (ps : List α) (acc : E) :
    val acc ≤ val (ps.foldl (fun acc p => (f p).elim acc (Endpoint.max acc)) acc) ∧
      ∀ p ∈ ps, ∀ q, f p = some q →
        val q ≤ val (ps.foldl (fun acc p => (f p).elim acc (Endpoint.max acc)) acc) := by
  induction ps generalizing acc with
  | nil => exact ⟨le_rfl, by simp⟩
  | cons p ps ih =>
    rw [List.foldl_cons]
    cases hp : f p with
    | none =>
      refine ⟨(ih acc).1, ?_⟩
      intro p' hp' q hq
      rcases List.mem_cons.mp hp' with rfl | hmem
      · rw [hp] at hq
        cases hq
      · exact (ih acc).2 p' hmem q hq
    | some v =>
      obtain ⟨hacc, hrest⟩ := ih (Endpoint.max acc v)
      rw [val_max] at hacc
      refine ⟨(le_max_left _ _).trans hacc, ?_⟩
      intro p' hp' q hq
      rcases List.mem_cons.mp hp' with rfl | hmem
      · rw [hp] at hq
        cases hq
        exact (le_max_right _ _).trans hacc
      · exact hrest p' hmem q hq

/-- A value between those at two corners lies in the hull. -/
theorem mem_cornerHull {op : E → E → Dir → Option E} {t : ℝ}
    (hlo : ∃ p ∈ corners a.lo a.hi b.lo b.hi, ∃ q, op p.1 p.2 .down = some q ∧ val q ≤ t)
    (hhi : ∃ p ∈ corners a.lo a.hi b.lo b.hi, ∃ q, op p.1 p.2 .up = some q ∧ (t : EReal) ≤ val q) :
    t ∈ cornerHull a b op := by
  obtain ⟨p, hp, q, hq, hqt⟩ := hlo
  obtain ⟨p', hp', q', hq', htq⟩ := hhi
  refine mem_enclosure ?_ ?_
  · exact ((foldl_min_le (fun p => op p.1 p.2 .down) _ _).2 p hp q hq).trans hqt
  · exact htq.trans ((le_foldl_max (fun p => op p.1 p.2 .up) _ _).2 p' hp' q' hq')

/-- The corners of the endpoints' values are the values of the corners. -/
theorem exists_of_mem_corners {p : EReal × EReal}
    (h : p ∈ corners (val a.lo) (val a.hi) (val b.lo) (val b.hi)) :
    ∃ e ∈ corners a.lo a.hi b.lo b.hi, p = (val e.1, val e.2) := by
  simp only [corners, List.mem_cons, List.not_mem_nil, or_false] at h
  rcases h with rfl | rfl | rfl | rfl
  · exact ⟨(a.lo, b.lo), by simp [corners], rfl⟩
  · exact ⟨(a.lo, b.hi), by simp [corners], rfl⟩
  · exact ⟨(a.hi, b.lo), by simp [corners], rfl⟩
  · exact ⟨(a.hi, b.hi), by simp [corners], rfl⟩

theorem mem_mul (hx : x ∈ a) (hy : y ∈ b) : x * y ∈ a.mul b := by
  refine mem_cornerHull ?_ ?_
  · obtain ⟨p, hp, hle⟩ := exists_corner_mul_le hx.1 hx.2 hy.1 hy.2
    obtain ⟨e, he, rfl⟩ := exists_of_mem_corners hp
    refine ⟨e, he, _, rfl, (mulDir_bounds e.1 e.2 .down).trans ?_⟩
    rw [EReal.coe_mul]
    exact hle
  · obtain ⟨p, hp, hle⟩ := exists_le_corner_mul hx.1 hx.2 hy.1 hy.2
    obtain ⟨e, he, rfl⟩ := exists_of_mem_corners hp
    refine ⟨e, he, _, rfl, le_trans ?_ (mulDir_bounds e.1 e.2 .up)⟩
    rw [EReal.coe_mul]
    exact hle

theorem containsZero_iff : a.containsZero = true ↔ (0 : ℝ) ∈ a := by
  rw [containsZero, contains, Bool.and_eq_true, Endpoint.le_iff, Endpoint.le_iff, val_zero, mem_def,
    EReal.coe_zero]

/-- The divisor's interval may contain zero. -/
theorem mem_div (hx : x ∈ a) (hy : y ∈ b) : x / y ∈ a.div b := by
  rw [div]
  split
  · exact mem_entire _
  · next hzero =>
    rw [containsZero_iff, mem_def, not_and_or, not_le, not_le, EReal.coe_zero] at hzero
    have hcorner (e : E × E) (he : e ∈ corners a.lo a.hi b.lo b.hi) : val e.2 ≠ 0 := by
      have hmem : e.2 = b.lo ∨ e.2 = b.hi := by
        simp only [corners, List.mem_cons, List.not_mem_nil, or_false] at he
        rcases he with rfl | rfl | rfl | rfl <;> simp
      have hord : val b.lo ≤ val b.hi := hy.1.trans hy.2
      rcases hmem with h | h <;> rw [h]
      · rcases hzero with hpos | hneg
        · exact hpos.ne'
        · exact (hord.trans_lt hneg).ne
      · rcases hzero with hpos | hneg
        · exact (hpos.trans_le hord).ne'
        · exact hneg.ne
    have hlo := exists_corner_div_le hx.1 hx.2 a.lo_ne_top a.hi_ne_bot hy.1 hy.2
      (EReal.coe_ne_bot y) (EReal.coe_ne_top y) hzero
    have hhi := exists_le_corner_div hx.1 hx.2 a.lo_ne_top a.hi_ne_bot hy.1 hy.2
      (EReal.coe_ne_bot y) (EReal.coe_ne_top y) hzero
    refine mem_cornerHull ?_ ?_
    · obtain ⟨p, hp, hdet, hle⟩ := hlo
      obtain ⟨e, he, rfl⟩ := exists_of_mem_corners hp
      obtain ⟨q, hq⟩ := Option.isSome_iff_exists.mp
        (divDir_isSome e.1 e.2 .down (hcorner e he) hdet)
      refine ⟨e, he, q, hq, (divDir_bounds e.1 e.2 q .down (hcorner e he) hdet hq).trans ?_⟩
      rw [EReal.coe_div]
      exact hle
    · obtain ⟨p, hp, hdet, hle⟩ := hhi
      obtain ⟨e, he, rfl⟩ := exists_of_mem_corners hp
      obtain ⟨q, hq⟩ := Option.isSome_iff_exists.mp
        (divDir_isSome e.1 e.2 .up (hcorner e he) hdet)
      refine ⟨e, he, q, hq, le_trans ?_ (divDir_bounds e.1 e.2 q .up (hcorner e he) hdet hq)⟩
      rw [EReal.coe_div]
      exact hle

/-- A factor is in the quotient's interval, also where the other factor is zero. -/
theorem mem_div_of_mul_eq {q : ℝ} (hx : x ∈ a) (hy : y ∈ b) (h : q * y = x) : q ∈ a.div b := by
  by_cases hy0 : y = 0
  · subst hy0
    rw [div, if_pos (containsZero_iff.mpr hy)]
    exact mem_entire q
  · have hdiv := mem_div hx hy
    rwa [← h, mul_div_cancel_right₀ q hy0] at hdiv

/-! ### Lattice operations and powers -/

theorem mem_nonNegative (hx : 0 ≤ x) : x ∈ (nonNegative : Interval E) := by
  refine mem_enclosure ?_ ?_
  · rw [val_zero]
    exact EReal.coe_nonneg.mpr hx
  · rw [val_inf]
    exact le_top

theorem mem_min (hx : x ∈ a) (hy : y ∈ b) : Min.min x y ∈ a.min b := by
  have hcoe : ((Min.min x y : ℝ) : EReal) = Min.min (x : EReal) y :=
    EReal.coe_strictMono.monotone.map_min
  refine mem_enclosure ?_ ?_ <;> rw [val_min, hcoe]
  · exact min_le_min hx.1 hy.1
  · exact min_le_min hx.2 hy.2

theorem mem_max (hx : x ∈ a) (hy : y ∈ b) : Max.max x y ∈ a.max b := by
  have hcoe : ((Max.max x y : ℝ) : EReal) = Max.max (x : EReal) y :=
    EReal.coe_strictMono.monotone.map_max
  refine mem_enclosure ?_ ?_ <;> rw [val_max, hcoe]
  · exact max_le_max hx.1 hy.1
  · exact max_le_max hx.2 hy.2

theorem coe_abs_le (hx : x ∈ a) :
    ((|x| : ℝ) : EReal) ≤ val (Endpoint.max (Endpoint.neg a.lo) a.hi) := by
  rw [val_max, LawfulEndpoint.val_neg]
  rcases abs_choice x with h | h <;> rw [h]
  · exact hx.2.trans (le_max_right _ _)
  · rw [EReal.coe_neg]
    exact (EReal.neg_le_neg_iff.mpr hx.1).trans (le_max_left _ _)

theorem val_zero_le_abs (x : ℝ) : val (Endpoint.zero : E) ≤ ((|x| : ℝ) : EReal) := by
  rw [val_zero]
  exact EReal.coe_nonneg.mpr (by positivity)

theorem mem_abs (hx : x ∈ a) : |x| ∈ a.abs := by
  rw [abs]
  split
  · next hlo =>
    rw [Endpoint.le_iff, val_zero] at hlo
    rwa [abs_of_nonneg (EReal.coe_nonneg.mp (hlo.trans hx.1))]
  · split
    · next hhi =>
      rw [Endpoint.le_iff, val_zero] at hhi
      rw [abs_of_nonpos (EReal.coe_nonpos.mp (hx.2.trans hhi))]
      exact mem_neg hx
    · exact mem_enclosure (val_zero_le_abs x) (coe_abs_le hx)

/-- Around a real number an enclosure has the endpoints it was given. -/
theorem enclosure_eq {lo hi : E} (hlo : val lo ≤ x) (hhi : x ≤ val hi) :
    (enclosure lo hi).lo = lo ∧ (enclosure lo hi).hi = hi := by
  obtain ⟨h, heq⟩ := checked_of_mem hlo hhi
  rw [enclosure, heq]
  exact ⟨rfl, rfl⟩

theorem abs_lo_nonneg (hx : x ∈ a) : 0 ≤ val a.abs.lo := by
  rw [abs]
  split
  · next hlo => rwa [Endpoint.le_iff, val_zero] at hlo
  · split
    · next hhi =>
      have hlo' : val (Endpoint.neg a.hi) ≤ ((-x : ℝ) : EReal) := by
        rw [LawfulEndpoint.val_neg, EReal.coe_neg, EReal.neg_le_neg_iff]
        exact hx.2
      have hhi' : ((-x : ℝ) : EReal) ≤ val (Endpoint.neg a.lo) := by
        rw [LawfulEndpoint.val_neg, EReal.coe_neg, EReal.neg_le_neg_iff]
        exact hx.1
      rw [neg, (enclosure_eq hlo' hhi').1, LawfulEndpoint.val_neg, EReal.le_neg, neg_zero]
      rwa [Endpoint.le_iff, val_zero] at hhi
    · rw [(enclosure_eq (val_zero_le_abs x) (coe_abs_le hx)).1, val_zero]

theorem lo_intersect_nonNegative {c : Interval E} (h : a.intersect nonNegative = some c) :
    0 ≤ val c.lo := by
  have hlo : (nonNegative : Interval E).lo = zero :=
    (enclosure_eq (x := 0) (by rw [val_zero, EReal.coe_zero]) (by rw [val_inf]; exact le_top)).1
  rw [intersect, checked] at h
  split at h
  · cases h
    rw [val_max, hlo, val_zero]
    exact le_max_right _ _
  · cases h

theorem mem_powi (hx : x ∈ a) (n : ℕ) : x ^ n ∈ a.powi n := by
  rw [powi]
  split
  · next hn =>
    rw [hn, pow_zero]
    refine mem_enclosure ?_ ?_ <;> rw [val_one, EReal.coe_one]
  · next hn =>
    split
    · next heven =>
      -- An even power is that of the magnitude.
      have hmem := mem_abs hx
      have hlo : 0 ≤ val a.abs.lo := abs_lo_nonneg hx
      have hhi : 0 ≤ val a.abs.hi := hlo.trans (hmem.1.trans hmem.2)
      rw [← (Nat.even_iff.mpr heven).pow_abs]
      refine mem_enclosure ?_ ?_
      · have hdown : Dir.down.Bounds (val a.abs.lo) (|x| : ℝ) := hmem.1
        exact powerDir_bounds_of_nonneg hlo hn (by positivity) hdown
      · have hup : Dir.up.Bounds (val a.abs.hi) (|x| : ℝ) := hmem.2
        exact powerDir_bounds_of_nonneg hhi hn (by positivity) hup
    · next hodd =>
      have hodd' : n % 2 = 1 := by omega
      refine mem_enclosure ?_ ?_
      · have hdown : Dir.down.Bounds (val a.lo) x := hx.1
        exact powerDir_bounds_of_odd hodd' hdown
      · have hup : Dir.up.Bounds (val a.hi) x := hx.2
        exact powerDir_bounds_of_odd hodd' hup

/-- The root of a non-negative value. -/
theorem keeps_sqrt (hx : x ∈ a) (h : 0 ≤ x) : Keeps a.sqrt (Real.sqrt x) := by
  obtain ⟨domain, hdomain, hmem⟩ := keeps_intersect hx (mem_nonNegative h)
  have hlo := lo_intersect_nonNegative hdomain
  have hhi : 0 ≤ val domain.hi := hlo.trans (hmem.1.trans hmem.2)
  have hsq : Real.sqrt x ^ 2 = x := Real.sq_sqrt h
  refine ⟨_, by rw [sqrt, hdomain]; rfl, ?_⟩
  refine mem_enclosure ?_ ?_
  · refine sqrtDir_bounds domain.lo .down (Real.sqrt x) hlo (Real.sqrt_nonneg x) ?_
    rw [hsq]
    exact hmem.1
  · refine sqrtDir_bounds domain.hi .up (Real.sqrt x) hhi (Real.sqrt_nonneg x) ?_
    rw [hsq]
    exact hmem.2

/-! ## The preimages keep -/

theorem keeps_symmetricPreimage (hx : x ∈ a) (hz : |x| ∈ z) : Keeps (symmetricPreimage z a) x := by
  rcases le_total 0 x with h | h
  · rw [abs_of_nonneg h] at hz
    obtain ⟨c, hc, hmem⟩ := keeps_intersect hx hz
    rw [symmetricPreimage, hc]
    split
    · next positive negative hpos hneg =>
      cases hpos
      exact ⟨_, rfl, mem_hull_left hmem⟩
    · exact ⟨c, rfl, hmem⟩
  · rw [abs_of_nonpos h] at hz
    have hneg := mem_neg hz
    rw [neg_neg] at hneg
    obtain ⟨c, hc, hmem⟩ := keeps_intersect hx hneg
    rw [symmetricPreimage, hc]
    split
    · next positive negative hpos hneg =>
      cases hneg
      exact ⟨_, rfl, mem_hull_right hmem⟩
    · next hnone =>
      cases hpos : a.intersect z with
      | none => exact ⟨c, rfl, hmem⟩
      | some positive => exact absurd rfl (hnone positive c hpos)

theorem keeps_powiPreimage {n : ℕ} (hx : x ∈ a) (hz : x ^ n ∈ z) :
    Keeps (powiPreimage z a n) x := by
  rw [powiPreimage]
  split
  · next hn =>
    rw [hn, pow_zero] at hz
    have hone : z.contains one = true := by
      rw [contains, Bool.and_eq_true, Endpoint.le_iff, Endpoint.le_iff, val_one]
      exact_mod_cast hz
    rw [if_pos hone]
    exact ⟨a, rfl, hx⟩
  · next hn =>
    split
    · next heven =>
      have hpow : |x| ^ n = x ^ n := (Nat.even_iff.mpr heven).pow_abs x
      have hnonneg : 0 ≤ x ^ n := hpow ▸ by positivity
      obtain ⟨c, hc, hmem⟩ := keeps_intersect hz (mem_nonNegative hnonneg)
      have hlo := lo_intersect_nonNegative hc
      have hhi : 0 ≤ val c.hi := hlo.trans (hmem.1.trans hmem.2)
      rw [← hpow] at hmem
      rw [hc]
      refine keeps_symmetricPreimage hx (mem_enclosure ?_ ?_)
      · have hdown : Dir.down.Bounds (val c.lo) ((|x| ^ n : ℝ) : EReal) := hmem.1
        exact rootDir_bounds hlo hn (by positivity) hdown
      · have hup : Dir.up.Bounds (val c.hi) ((|x| ^ n : ℝ) : EReal) := hmem.2
        exact rootDir_bounds hhi hn (by positivity) hup
    · next hodd =>
      have hodd' : n % 2 = 1 := by omega
      refine keeps_intersect hx (mem_enclosure ?_ ?_)
      · have hdown : Dir.down.Bounds (val z.lo) ((x ^ n : ℝ) : EReal) := hz.1
        exact signedRootDir_bounds hodd' hdown
      · have hup : Dir.up.Bounds (val z.hi) ((x ^ n : ℝ) : EReal) := hz.2
        exact signedRootDir_bounds hodd' hup

theorem keeps_sqrtPreimage (hx : x ∈ a) (h : 0 ≤ x) (hz : Real.sqrt x ∈ z) :
    Keeps (sqrtPreimage z a) x := by
  refine (keeps_intersect hz (mem_nonNegative (Real.sqrt_nonneg x))).bind ?_
  intro roots hroots
  have hpow := mem_powi hroots 2
  rw [Real.sq_sqrt h] at hpow
  exact keeps_intersect hx hpow

theorem keeps_absPreimage (hx : x ∈ a) (hz : |x| ∈ z) : Keeps (absPreimage z a) x :=
  (keeps_intersect hz (mem_nonNegative (by positivity))).bind fun _ hmagnitude =>
    keeps_symmetricPreimage hx hmagnitude

theorem keeps_mulPreimage (hx : x ∈ a) (hy : y ∈ b) (hz : x * y ∈ z) :
    Keeps (mulPreimage z a b) x :=
  keeps_intersect hx (mem_div_of_mul_eq hz hy rfl)

theorem keeps_divNumeratorPreimage {q : ℝ} (hx : x ∈ a) (hy : y ∈ b) (hq : q ∈ z)
    (h : q * y = x) : Keeps (divNumeratorPreimage z a b) x := by
  have hmul := mem_mul hq hy
  rw [h] at hmul
  exact keeps_intersect hx hmul

theorem keeps_divDenominatorPreimage {q : ℝ} (hx : x ∈ a) (hy : y ∈ b) (hq : q ∈ z)
    (h : q * y = x) : Keeps (divDenominatorPreimage z b a) y :=
  keeps_intersect hy (mem_div_of_mul_eq hx hq (by rw [mul_comm, h]))

theorem keeps_minPreimage (hx : x ∈ a) (hy : y ∈ b) (hz : Min.min x y ∈ z) :
    Keeps (minPreimage z a b) x := by
  have hfloor : x ∈ (enclosure z.lo inf : Interval E) := by
    refine mem_enclosure (hz.1.trans ?_) ?_
    · exact_mod_cast min_le_left x y
    · rw [val_inf]
      exact le_top
  refine (keeps_intersect hx hfloor).bind ?_
  intro floored hfloored
  split
  · next hlt =>
    rw [lt_iff] at hlt
    have hxy : x ≤ y := by
      rcases min_choice x y with h | h
      · exact min_eq_left_iff.mp h
      · rw [h] at hz
        exact absurd (hy.1.trans hz.2) (not_le.mpr hlt)
    rw [min_eq_left hxy] at hz
    exact keeps_intersect hfloored hz
  · exact ⟨floored, rfl, hfloored⟩

theorem keeps_maxPreimage (hx : x ∈ a) (hy : y ∈ b) (hz : Max.max x y ∈ z) :
    Keeps (maxPreimage z a b) x := by
  have hcap : x ∈ (enclosure negInf z.hi : Interval E) := by
    refine mem_enclosure ?_ (le_trans ?_ hz.2)
    · rw [val_negInf]
      exact bot_le
    · exact_mod_cast le_max_left x y
  refine (keeps_intersect hx hcap).bind ?_
  intro capped hcapped
  split
  · next hlt =>
    rw [lt_iff] at hlt
    have hyx : y ≤ x := by
      rcases max_choice x y with h | h
      · exact max_eq_left_iff.mp h
      · rw [h] at hz
        exact absurd (hz.1.trans hy.2) (not_le.mpr hlt)
    rw [max_eq_left hyx] at hz
    exact keeps_intersect hcapped hz
  · exact ⟨capped, rfl, hcapped⟩

end

end Interval

end Reify
