import Reify.Core.Dimension
import Reify.Foundation.Corners

/-!
# Directed endpoint operations

Interval endpoints are doubles that are not NaN.  An operation on them is rounded
in a direction, down for a lower bound and up for an upper bound; powers are
chains of directed products, and a root is a guess that a directed power verifies.
Everything is generic in the endpoint type: `Endpoint` has the machine operations,
and `LawfulEndpoint` reads an endpoint as an extended real and says that a
directed operation lies on its side of the exact result.

## Main definitions

* `Dir`, `Dir.Bounds`: a direction, and what it means to bound a value on its side.
* `Endpoint`, `LawfulEndpoint`.
* `magnitudePowerDir`, `powerDir`, `rootDir`, `signedRootDir`.

## Main results

* `powerDir_bounds_of_nonneg`, `powerDir_bounds_of_odd`: directed powers.
* `rootDir_bounds`, `signedRootDir_bounds`: directed roots.
-/

namespace Reify

open Foundation

/-- Which bound a directed operation computes. -/
inductive Dir where
  | down
  | up
deriving DecidableEq, Repr

/-- The opposite direction. -/
def Dir.flipped : Dir → Dir
  | down => up
  | up => down

/-- `v` bounds `w` on the side of the direction. -/
def Dir.Bounds : Dir → EReal → EReal → Prop
  | down, v, w => v ≤ w
  | up, v, w => w ≤ v

theorem Dir.bounds_of_eq {dir : Dir} {v w : EReal} (h : v = w) : dir.Bounds v w := by
  cases dir with
  | down => exact h.le
  | up => exact h.ge

/-- The operations on doubles that are not NaN; an operation that can produce a
NaN returns an option. -/
class Endpoint (E : Type) where
  le : E → E → Bool
  zero : E
  one : E
  inf : E
  negInf : E
  neg : E → E
  /-- The difference and the product, rounded to nearest. -/
  sub : E → E → E
  mul : E → E → E
  addDir : E → E → Dir → E
  mulDir : E → E → Dir → E
  divDir : E → E → Dir → Option E
  sqrtDir : E → Dir → E
  /-- `next_down` and `next_up`. -/
  widen : E → Dir → E
  newtonRootGuess : E → Nat → Option E
  /-- `HC4_MIN_RELATIVE_SHRINK`. -/
  minRelativeShrink : E
  equalityBand : E → E → DimensionVector → E × E
  negInf_le_inf : le negInf inf = true
  not_inf_le_negInf : le inf negInf = false

namespace Endpoint

variable {E : Type} [Endpoint E]

/-! ## Derived operations -/

/-- `a < b`. -/
def lt (a b : E) : Bool := !le b a

/-- `f64::min`. -/
def min (a b : E) : E := if le a b then a else b

/-- `f64::max`. -/
def max (a b : E) : E := if le a b then b else a

/-- `f64::abs`. -/
def abs (a : E) : E := if le zero a then a else neg a

/-- `f64::is_infinite`. -/
def isInfinite (a : E) : Bool := le inf a || le a negInf

/-- `f64::is_finite`. -/
def isFinite (a : E) : Bool := !isInfinite a

/-- Whether the value is a zero. -/
def isZero (a : E) : Bool := le a zero && le zero a

/-- `m ^ n` for `n ≥ 1`, as a chain of directed products. -/
def magnitudePowerDir (m : E) (dir : Dir) : Nat → E
  | 0 => m
  | 1 => m
  | n + 2 => mulDir (magnitudePowerDir m dir (n + 1)) m dir

/-- `x ^ n` for `n ≥ 1`: an odd power of a negative base is the negated power of
its magnitude, rounded the other way. -/
def powerDir (x : E) (n : Nat) (dir : Dir) : E :=
  if lt x zero && decide (n % 2 = 1) then neg (magnitudePowerDir (neg x) dir.flipped n)
  else magnitudePowerDir (abs x) dir n

/-- Whether the directed power shows that `r` bounds the root of `m`. -/
def boundsRoot (m : E) (n : Nat) (dir : Dir) (r : E) : Bool :=
  match dir with
  | .down => le zero r && le (magnitudePowerDir r .up n) m
  | .up => le m (magnitudePowerDir r .down n)

/-- Bound on the steps taken from the guess. -/
def rootRefineSteps : Nat := 8

/-- Steps outward until the guess verifies. -/
def refineOut (m : E) (n : Nat) (dir : Dir) : Nat → E → E
  | 0, root => root
  | steps + 1, root =>
    if boundsRoot m n dir root then root else refineOut m n dir steps (widen root dir)

/-- Steps inward while the neighbour still verifies. -/
def refineIn (m : E) (n : Nat) (dir : Dir) : Nat → E → E
  | 0, root => root
  | steps + 1, root =>
    if boundsRoot m n dir (widen root dir.flipped) then
      refineIn m n dir steps (widen root dir.flipped)
    else root

/-- The bound that needs no verification. -/
def trivialRoot : Dir → E
  | .down => zero
  | .up => inf

/-- `m ^ (1 / n)` for `m ≥ 0` and `n ≥ 1`. -/
def rootDir (m : E) (n : Nat) (dir : Dir) : E :=
  if decide (n = 1) || isZero m || isInfinite m then m
  else if n = 2 then sqrtDir m dir
  else
    match newtonRootGuess m n with
    -- A guess that is a NaN never verifies.
    | none => trivialRoot dir
    | some guess =>
      if boundsRoot m n dir (refineOut m n dir rootRefineSteps guess) then
        refineIn m n dir rootRefineSteps (refineOut m n dir rootRefineSteps guess)
      else trivialRoot dir

/-- The real `n`-th root of a signed value, for odd `n`. -/
def signedRootDir (v : E) (n : Nat) (dir : Dir) : E :=
  if lt v zero then neg (rootDir (neg v) n dir.flipped) else rootDir v n dir

end Endpoint

/-- Endpoints read as extended reals: comparisons and negation are exact, and a
directed operation bounds the exact result on its side. -/
class LawfulEndpoint (E : Type) [Endpoint E] where
  val : E → EReal
  le_iff : ∀ a b : E, Endpoint.le a b = true ↔ val a ≤ val b
  val_zero : val (Endpoint.zero : E) = 0
  val_one : val (Endpoint.one : E) = 1
  val_inf : val (Endpoint.inf : E) = ⊤
  val_negInf : val (Endpoint.negInf : E) = ⊥
  val_neg : ∀ a : E, val (Endpoint.neg a) = -val a
  addDir_bounds : ∀ (a b : E) (dir : Dir),
    dir.Bounds (val (Endpoint.addDir a b dir)) (val a + val b)
  mulDir_bounds : ∀ (a b : E) (dir : Dir),
    dir.Bounds (val (Endpoint.mulDir a b dir)) (val a * val b)
  /-- The quotient is a NaN only for two infinite operands. -/
  divDir_isSome : ∀ (a b : E) (dir : Dir), val b ≠ 0 → Determinate (val a, val b) →
    (Endpoint.divDir a b dir).isSome = true
  divDir_bounds : ∀ (a b q : E) (dir : Dir), val b ≠ 0 → Determinate (val a, val b) →
    Endpoint.divDir a b dir = some q → dir.Bounds (val q) (val a / val b)
  sqrtDir_bounds : ∀ (a : E) (dir : Dir) (t : ℝ), 0 ≤ val a → 0 ≤ t →
    dir.Bounds (val a) (t ^ 2 : ℝ) → dir.Bounds (val (Endpoint.sqrtDir a dir)) t
  le_widen_up : ∀ a : E, val a ≤ val (Endpoint.widen a .up)
  widen_down_nonneg : ∀ a : E, 0 < val a → 0 ≤ val (Endpoint.widen a .down)
  newtonRootGuess_nonneg : ∀ (m guess : E) (n : Nat), 0 < val m →
    Endpoint.newtonRootGuess m n = some guess → 0 ≤ val guess
  /-- What the solver accepts as equal at a dimension. -/
  scalarsEqual : ℝ → ℝ → DimensionVector → Prop
  scalarsEqual_symm : ∀ (a b : ℝ) (dimension : DimensionVector),
    scalarsEqual a b dimension → scalarsEqual b a dimension
  equalityBand_encloses : ∀ (lo hi : E) (dimension : DimensionVector) (a b : ℝ),
    val lo ≤ b → b ≤ val hi → scalarsEqual a b dimension →
      val (Endpoint.equalityBand lo hi dimension).1 ≤ a ∧
        a ≤ val (Endpoint.equalityBand lo hi dimension).2

/-! ## Powers of extended reals -/

theorem top_pow_succ (n : ℕ) : (⊤ : EReal) ^ (n + 1) = ⊤ := by
  induction n with
  | zero => exact pow_one ⊤
  | succ n ih => rw [pow_succ, ih, EReal.top_mul_top]

/-- Taking roots of an upper bound. -/
theorem le_coe_of_pow_le {u : EReal} {t : ℝ} {n : ℕ} (hn : n ≠ 0) (hu : 0 ≤ u) (ht : 0 ≤ t)
    (h : u ^ n ≤ ((t ^ n : ℝ) : EReal)) : u ≤ t := by
  induction u with
  | bot => exact bot_le
  | top =>
    obtain ⟨k, rfl⟩ := Nat.exists_eq_succ_of_ne_zero hn
    rw [Nat.succ_eq_add_one, top_pow_succ] at h
    exact absurd h (not_le.mpr (EReal.coe_lt_top _))
  | coe s =>
    rw [← EReal.coe_pow, EReal.coe_le_coe_iff] at h
    rw [EReal.coe_le_coe_iff]
    exact le_of_pow_le_pow_left₀ hn ht h

/-- Taking roots of a lower bound. -/
theorem coe_le_of_pow_le {u : EReal} {t : ℝ} {n : ℕ} (hn : n ≠ 0) (hu : 0 ≤ u)
    (h : ((t ^ n : ℝ) : EReal) ≤ u ^ n) : t ≤ u := by
  induction u with
  | bot => exact absurd hu (not_le.mpr EReal.bot_lt_zero)
  | top => exact le_top
  | coe s =>
    rw [← EReal.coe_pow, EReal.coe_le_coe_iff] at h
    rw [EReal.coe_le_coe_iff]
    exact le_of_pow_le_pow_left₀ hn (by exact_mod_cast hu) h

namespace Endpoint

open LawfulEndpoint

variable {E : Type} [Endpoint E] [LawfulEndpoint E]

/-! ## Reading the derived operations -/

theorem le_iff (a b : E) : le a b = true ↔ val a ≤ val b := LawfulEndpoint.le_iff a b

theorem lt_iff (a b : E) : lt a b = true ↔ val a < val b := by
  rw [lt, Bool.not_eq_true', ← not_le, ← le_iff, Bool.not_eq_true]

theorem val_min (a b : E) : val (min a b) = Min.min (val a) (val b) := by
  rw [min]
  split
  · next h => rw [min_eq_left ((le_iff a b).mp h)]
  · next h => rw [min_eq_right (le_of_not_ge fun hle => h ((le_iff a b).mpr hle))]

theorem val_max (a b : E) : val (max a b) = Max.max (val a) (val b) := by
  rw [max]
  split
  · next h => rw [max_eq_right ((le_iff a b).mp h)]
  · next h => rw [max_eq_left (le_of_not_ge fun hle => h ((le_iff a b).mpr hle))]

theorem abs_nonneg (a : E) : 0 ≤ val (abs a) := by
  rw [abs]
  split
  · next h => rwa [le_iff, val_zero] at h
  · next h =>
    rw [le_iff, val_zero, not_le] at h
    rw [LawfulEndpoint.val_neg, EReal.le_neg, neg_zero]
    exact h.le

theorem val_abs_of_nonneg {a : E} (h : 0 ≤ val a) : val (abs a) = val a := by
  rw [abs, if_pos ((le_iff _ a).mpr (by rwa [val_zero]))]

end Endpoint

open Endpoint LawfulEndpoint

section
variable {E : Type} [Endpoint E] [LawfulEndpoint E]

theorem Dir.bounds_neg {dir : Dir} {v w : EReal} :
    dir.flipped.Bounds (-v) (-w) ↔ dir.Bounds v w := by
  cases dir <;> exact EReal.neg_le_neg_iff

/-! ## Directed powers -/

/-- The chain of products bounds the power of the endpoint's own value. -/
theorem magnitudePowerDir_bounds {m : E} (hm : 0 ≤ val m) (dir : Dir) (n : Nat) :
    dir.Bounds (val (magnitudePowerDir m dir (n + 1))) (val m ^ (n + 1)) := by
  induction n with
  | zero => cases dir <;> exact (pow_one (val m)).symm ▸ le_rfl
  | succ n ih =>
    have hstep := mulDir_bounds (magnitudePowerDir m dir (n + 1)) m dir
    rw [pow_succ]
    cases dir with
    | down => exact hstep.trans (mul_le_mul_of_nonneg_right ih hm)
    | up => exact (mul_le_mul_of_nonneg_right ih hm).trans hstep

/-- A bound on a magnitude gives one on its power. -/
theorem magnitudePowerDir_bounds_coe {m : E} (hm : 0 ≤ val m) {dir : Dir} {n : Nat} (hn : n ≠ 0)
    {t : ℝ} (ht : 0 ≤ t) (h : dir.Bounds (val m) t) :
    dir.Bounds (val (magnitudePowerDir m dir n)) ((t ^ n : ℝ) : EReal) := by
  obtain ⟨k, rfl⟩ := Nat.exists_eq_succ_of_ne_zero hn
  have hchain := magnitudePowerDir_bounds hm dir k
  have ht' : (0 : EReal) ≤ t := by exact_mod_cast ht
  rw [EReal.coe_pow]
  cases dir with
  | down => exact hchain.trans (pow_le_pow_left₀ hm h _)
  | up => exact (pow_le_pow_left₀ ht' h _).trans hchain

theorem powerDir_bounds_of_nonneg {x : E} (hx : 0 ≤ val x) {dir : Dir} {n : Nat} (hn : n ≠ 0)
    {t : ℝ} (ht : 0 ≤ t) (h : dir.Bounds (val x) t) :
    dir.Bounds (val (powerDir x n dir)) ((t ^ n : ℝ) : EReal) := by
  have hlt : lt x zero = false := by
    rw [Bool.eq_false_iff, Ne, lt_iff, val_zero, not_lt]
    exact hx
  rw [powerDir, hlt, Bool.false_and, if_neg Bool.false_ne_true]
  exact magnitudePowerDir_bounds_coe (abs_nonneg x) hn ht (by rwa [val_abs_of_nonneg hx])

/-- An odd power is increasing, so a bound of either sign gives one on the power. -/
theorem powerDir_bounds_of_odd {x : E} {dir : Dir} {n : Nat} (hn : n % 2 = 1) {t : ℝ}
    (h : dir.Bounds (val x) t) : dir.Bounds (val (powerDir x n dir)) ((t ^ n : ℝ) : EReal) := by
  have hodd : Odd n := Nat.odd_iff.mpr hn
  have hn0 : n ≠ 0 := by omega
  rcases le_or_gt 0 (val x) with hx | hx
  · rcases le_or_gt 0 t with ht | ht
    · exact powerDir_bounds_of_nonneg hx hn0 ht h
    · -- The endpoint and the value lie on different sides of zero.
      cases dir with
      | down => exact absurd (hx.trans h) (not_le.mpr (by exact_mod_cast ht))
      | up =>
        have hzero : Dir.up.Bounds (val (powerDir x n .up)) ((0 ^ n : ℝ) : EReal) :=
          powerDir_bounds_of_nonneg hx hn0 le_rfl (by simpa [Dir.Bounds] using hx)
        refine le_trans ?_ hzero
        exact_mod_cast hodd.strictMono_pow.monotone ht.le
  · have hneg : 0 ≤ val (neg x) := by
      rw [LawfulEndpoint.val_neg, EReal.le_neg, neg_zero]
      exact hx.le
    have hlt : (lt x zero && decide (n % 2 = 1)) = true := by
      rw [Bool.and_eq_true, lt_iff, val_zero, decide_eq_true_eq]
      exact ⟨hx, hn⟩
    have hflip : dir.flipped.Bounds (val (neg x)) ((-t : ℝ) : EReal) := by
      rw [LawfulEndpoint.val_neg, EReal.coe_neg, Dir.bounds_neg]
      exact h
    rw [powerDir, if_pos hlt, LawfulEndpoint.val_neg, ← neg_neg t, Odd.neg_pow hodd, EReal.coe_neg,
      ← Dir.bounds_neg, neg_neg, neg_neg]
    rcases le_or_gt t 0 with ht | ht
    · exact magnitudePowerDir_bounds_coe hneg hn0 (neg_nonneg.mpr ht) hflip
    · cases dir with
      | down =>
        have hzero : Dir.up.Bounds (val (magnitudePowerDir (neg x) .up n))
            ((0 ^ n : ℝ) : EReal) :=
          magnitudePowerDir_bounds_coe hneg hn0 le_rfl (by simpa [Dir.Bounds] using hneg)
        refine le_trans ?_ hzero
        exact_mod_cast hodd.strictMono_pow.monotone (neg_nonpos.mpr ht.le)
      | up => exact absurd (h.trans_lt hx) (not_lt.mpr (by exact_mod_cast ht.le))

/-! ## Directed roots -/

/-- A candidate that may be verified: non-negative where the direction is up. -/
def RootCandidate (dir : Dir) (r : E) : Prop := dir = .up → 0 ≤ val r

/-- A verified candidate bounds the root. -/
theorem bounds_of_boundsRoot {m r : E} {n : Nat} (hn : n ≠ 0) {dir : Dir}
    (hr : RootCandidate dir r) (h : boundsRoot m n dir r = true) {t : ℝ} (ht : 0 ≤ t)
    (hm : dir.Bounds (val m) ((t ^ n : ℝ) : EReal)) : dir.Bounds (val r) t := by
  obtain ⟨k, rfl⟩ := Nat.exists_eq_succ_of_ne_zero hn
  cases dir with
  | down =>
    rw [boundsRoot, Bool.and_eq_true, Endpoint.le_iff, Endpoint.le_iff, val_zero] at h
    obtain ⟨hr0, hpow⟩ := h
    have hchain := magnitudePowerDir_bounds hr0 .up k
    exact le_coe_of_pow_le hn hr0 ht ((hchain.trans hpow).trans hm)
  | up =>
    rw [boundsRoot, Endpoint.le_iff] at h
    have hr0 : 0 ≤ val r := hr rfl
    have hchain := magnitudePowerDir_bounds hr0 .down k
    exact coe_le_of_pow_le hn hr0 ((le_trans hm h).trans hchain)

theorem rootCandidate_refineOut {m : E} {n : Nat} {dir : Dir} {r : E} (hr : RootCandidate dir r)
    (steps : Nat) : RootCandidate dir (refineOut m n dir steps r) := by
  induction steps generalizing r with
  | zero => exact hr
  | succ steps ih =>
    rw [refineOut]
    split
    · exact hr
    · refine ih ?_
      rintro rfl
      exact (hr rfl).trans (le_widen_up r)

/-- Stepping inward keeps the candidate verified. -/
theorem refineIn_spec {m : E} {n : Nat} (hn : n ≠ 0) (hm : 0 < val m) {dir : Dir} {r : E}
    (hr : RootCandidate dir r) (h : boundsRoot m n dir r = true) (steps : Nat) :
    RootCandidate dir (refineIn m n dir steps r) ∧
      boundsRoot m n dir (refineIn m n dir steps r) = true := by
  induction steps generalizing r with
  | zero => exact ⟨hr, h⟩
  | succ steps ih =>
    rw [refineIn]
    split
    · next hinner =>
      refine ih ?_ hinner
      rintro rfl
      -- A verified upper bound of a positive root is positive itself.
      have hpos : (0 : EReal) < val r := by
        refine lt_of_le_of_ne (hr rfl) ?_
        intro hzero
        rw [boundsRoot, Endpoint.le_iff] at h
        obtain ⟨k, rfl⟩ := Nat.exists_eq_succ_of_ne_zero hn
        have hchain := magnitudePowerDir_bounds (hr rfl) .down k
        rw [← hzero, zero_pow hn] at hchain
        exact absurd (h.trans hchain) (not_le.mpr hm)
      exact widen_down_nonneg r hpos
    · exact ⟨hr, h⟩

theorem trivialRoot_bounds {dir : Dir} {t : ℝ} (ht : 0 ≤ t) :
    dir.Bounds (val (trivialRoot dir : E)) t := by
  cases dir with
  | down =>
    show val (Endpoint.zero : E) ≤ t
    rw [val_zero]
    exact_mod_cast ht
  | up =>
    show (t : EReal) ≤ val (Endpoint.inf : E)
    rw [val_inf]
    exact le_top

/-- **A directed root bounds the root** on its side. -/
theorem rootDir_bounds {m : E} (hm : 0 ≤ val m) {n : Nat} (hn : n ≠ 0) {dir : Dir} {t : ℝ}
    (ht : 0 ≤ t) (h : dir.Bounds (val m) ((t ^ n : ℝ) : EReal)) :
    dir.Bounds (val (rootDir m n dir)) t := by
  rw [rootDir]
  split
  · next hcase =>
    -- The root is its own argument: of degree one, at zero and at infinity.
    simp only [Bool.or_eq_true, decide_eq_true_eq, isZero, isInfinite, Bool.and_eq_true,
      Endpoint.le_iff, val_zero, val_inf, val_negInf, top_le_iff, le_bot_iff] at hcase
    rcases hcase with (hn1 | ⟨hm0, -⟩) | htop | hbot
    · rw [hn1, pow_one] at h
      exact h
    · have hzero : val m = 0 := le_antisymm hm0 hm
      rw [hzero] at h ⊢
      cases dir with
      | down => exact EReal.coe_nonneg.mpr ht
      | up =>
        have hle : ((t ^ n : ℝ) : EReal) ≤ 0 := h
        have hpow : t ^ n ≤ 0 := by exact_mod_cast hle
        have ht0 : t = 0 := pow_eq_zero_iff hn |>.mp (le_antisymm hpow (pow_nonneg ht n))
        simp [ht0, Dir.Bounds]
    · rw [htop] at h ⊢
      cases dir with
      | down => exact absurd h (not_le.mpr (EReal.coe_lt_top _))
      | up => exact le_top
    · rw [hbot] at hm
      exact absurd hm (not_le.mpr EReal.bot_lt_zero)
  · next hcase =>
    have hpos : 0 < val m := by
      refine lt_of_le_of_ne hm fun hzero => hcase ?_
      simp [isZero, Endpoint.le_iff, val_zero, ← hzero]
    split
    · next hn2 =>
      subst hn2
      exact sqrtDir_bounds m dir t hm ht h
    · split
      · exact trivialRoot_bounds ht
      · next guess hguess =>
        have hcandidate : RootCandidate dir guess := fun _ =>
          newtonRootGuess_nonneg m guess n hpos hguess
        have hout := rootCandidate_refineOut (m := m) (n := n) hcandidate rootRefineSteps
        split
        · next hbound =>
          obtain ⟨hin, hverified⟩ := refineIn_spec hn hpos hout hbound rootRefineSteps
          exact bounds_of_boundsRoot hn hin hverified ht h
        · exact trivialRoot_bounds ht

/-- The real root of odd degree, as a bound: what bounds a power bounds its base. -/
theorem signedRootDir_bounds {v : E} {n : Nat} (hn : n % 2 = 1) {dir : Dir} {t : ℝ}
    (h : dir.Bounds (val v) ((t ^ n : ℝ) : EReal)) : dir.Bounds (val (signedRootDir v n dir)) t := by
  have hodd : Odd n := Nat.odd_iff.mpr hn
  have hn0 : n ≠ 0 := by omega
  rw [signedRootDir]
  split
  · next hlt =>
    rw [lt_iff, val_zero] at hlt
    have hneg : 0 ≤ val (neg v) := by
      rw [LawfulEndpoint.val_neg, EReal.le_neg, neg_zero]
      exact hlt.le
    have hflip {s : ℝ} (hs : dir.Bounds (val v) ((s ^ n : ℝ) : EReal)) :
        dir.flipped.Bounds (val (neg v)) (((-s) ^ n : ℝ) : EReal) := by
      rw [LawfulEndpoint.val_neg, Odd.neg_pow hodd, EReal.coe_neg, Dir.bounds_neg]
      exact hs
    rw [LawfulEndpoint.val_neg, ← neg_neg t, EReal.coe_neg, ← Dir.bounds_neg, neg_neg, neg_neg]
    rcases le_or_gt t 0 with ht | ht
    · exact rootDir_bounds hneg hn0 (neg_nonneg.mpr ht) (hflip h)
    · cases dir with
      | down =>
        have hzero : Dir.up.Bounds (val (rootDir (neg v) n .up)) ((0 : ℝ) : EReal) := by
          refine rootDir_bounds hneg hn0 le_rfl ?_
          rw [zero_pow hn0]
          exact_mod_cast hneg
        refine le_trans ?_ hzero
        exact_mod_cast neg_nonpos.mpr ht.le
      | up =>
        have hpow : ((0 : ℝ) : EReal) ≤ ((t ^ n : ℝ) : EReal) := by
          exact_mod_cast pow_nonneg ht.le n
        exact absurd (h.trans_lt hlt) (not_lt.mpr hpow)
  · next hlt =>
    rw [lt_iff, val_zero, not_lt] at hlt
    rcases le_or_gt 0 t with ht | ht
    · exact rootDir_bounds hlt hn0 ht h
    · cases dir with
      | down =>
        have hpow : t ^ n < 0 := hodd.pow_neg ht
        exact absurd (hlt.trans h) (not_le.mpr (by exact_mod_cast hpow))
      | up =>
        have hzero : Dir.up.Bounds (val (rootDir v n .up)) ((0 : ℝ) : EReal) := by
          refine rootDir_bounds hlt hn0 le_rfl ?_
          rw [zero_pow hn0]
          exact_mod_cast hlt
        refine le_trans ?_ hzero
        exact_mod_cast ht.le

end

end Reify
