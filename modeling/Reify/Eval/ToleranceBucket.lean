import Reify.Core.Float

/-!
# Tolerance buckets

A few cached values, each with the tolerance it was computed at, tightest first.
A value serves every request at its own tolerance or a looser one, so a bucket
refuses what a tighter value covers and may drop its loosest.

## Main definitions

* `ToleranceBucket.insert`, `ToleranceBucket.lookup`, `ToleranceBucket.remove`.
* `ToleranceBucket.WellFormed`: strictly ascending, within capacity, valid.

## Main results

* `ToleranceBucket.lookup_eq_some_iff`: a lookup finds the loosest entry that serves.
* `ToleranceBucket.covers_insert`: what served before an insert is served after it.
-/

namespace Reify

variable {V : Type}

/-- A tolerance is finite and not negative. -/
def isValidToleranceSi (v : F64) : Bool := v.isFinite && v.ge F64.zero

theorem isFinite_of_isValidToleranceSi {v : F64} (h : isValidToleranceSi v = true) :
    v.isFinite = true :=
  (Bool.and_eq_true_iff.mp h).1

/-- How many entries a bucket keeps. -/
def softCapacity : Nat := 5

/-- Cached values by ascending tolerance. -/
structure ToleranceBucket (V : Type) where
  entries : List (F64 × V)

namespace ToleranceBucket

/-- No entries. -/
def new : ToleranceBucket V := ⟨[]⟩

/-- Stores a value, unless a stored one serves its tolerance already; over capacity
the loosest entry goes. -/
def insert (b : ToleranceBucket V) (tol : F64) (val : V) : ToleranceBucket V × Bool :=
  if b.entries.any fun e => e.1.le tol then (b, false)
  else
    -- every entry is looser, so the new one comes first
    let entries := (tol, val) :: b.entries
    (⟨if entries.length > softCapacity then entries.dropLast else entries⟩, true)

/-- The value of the loosest entry that serves the request. -/
def lookup (b : ToleranceBucket V) (requestedTol : F64) : Option V :=
  b.entries.reverse.findSome? fun e => if e.1.le requestedTol then some e.2 else none

/-- Takes out the entry at exactly the given tolerance. -/
def remove (b : ToleranceBucket V) (tol : F64) : ToleranceBucket V × Option V :=
  (⟨b.entries.eraseP fun e => e.1.equal tol⟩,
    (b.entries.find? fun e => e.1.equal tol).map Prod.snd)

/-- The entries are strictly ascending, no more than the capacity, and valid. -/
structure WellFormed (b : ToleranceBucket V) : Prop where
  ascending : b.entries.Pairwise fun e e' => e.1.lt e'.1 = true
  bounded : b.entries.length ≤ softCapacity
  valid : ∀ e ∈ b.entries, isValidToleranceSi e.1 = true

/-- Some entry serves a request at the tolerance. -/
def Covers (b : ToleranceBucket V) (tol : F64) : Prop := ∃ e ∈ b.entries, e.1.le tol = true

variable {b : ToleranceBucket V} {tol t : F64} {val : V}

theorem wellFormed_new : (new : ToleranceBucket V).WellFormed :=
  ⟨List.Pairwise.nil, Nat.zero_le _, fun _ he => absurd he List.not_mem_nil⟩

/-! ## Inserting -/

theorem insert_snd_iff : (b.insert tol val).2 = true ↔ ¬ b.Covers tol := by
  unfold insert Covers
  by_cases h : b.entries.any fun e => e.1.le tol
  · rw [if_pos h]
    exact iff_of_false Bool.false_ne_true fun hnot => hnot (List.any_eq_true.mp h)
  · rw [if_neg h]
    exact iff_of_true rfl fun hcovers => h (List.any_eq_true.mpr hcovers)

/-- The entries after an insert are the new one and old ones. -/
theorem mem_insert {e : F64 × V} (he : e ∈ (b.insert tol val).1.entries) :
    e = (tol, val) ∨ e ∈ b.entries := by
  unfold insert at he
  split at he
  · exact Or.inr he
  · dsimp only at he
    split at he
    · exact List.mem_cons.mp (List.mem_of_mem_dropLast he)
    · exact List.mem_cons.mp he

/-- An insert keeps a bucket well formed. -/
theorem WellFormed.insert (h : b.WellFormed) (htol : isValidToleranceSi tol = true) (val : V) :
    (b.insert tol val).1.WellFormed := by
  refine ⟨?_, ?_, fun e he => ?_⟩
  · unfold ToleranceBucket.insert
    split
    · exact h.ascending
    · next hnone =>
      -- an entry that does not serve is looser
      have hcons : ((tol, val) :: b.entries).Pairwise fun e e' => e.1.lt e'.1 = true := by
        refine List.pairwise_cons.mpr ⟨fun e he => ?_, h.ascending⟩
        have hfinite := isFinite_of_isValidToleranceSi (h.valid e he)
        have hfinite' := isFinite_of_isValidToleranceSi htol
        have hnot : ¬ e.1.le tol = true := fun hle => hnone (List.any_eq_true.mpr ⟨e, he, hle⟩)
        rw [F64.le_iff hfinite hfinite'] at hnot
        exact (F64.lt_iff hfinite' hfinite).mpr (Int.not_le.mp hnot)
      dsimp only
      split
      · exact hcons.sublist (List.dropLast_sublist _)
      · exact hcons
  · unfold ToleranceBucket.insert
    split
    · exact h.bounded
    · dsimp only
      have hbounded := h.bounded
      split
      · rw [List.length_dropLast, List.length_cons]
        omega
      · omega
  · rcases mem_insert he with rfl | he
    · exact htol
    · exact h.valid e he

/-- A stored entry serves what the new one serves, and so does the new one. -/
theorem covers_insert_self (h : b.WellFormed) (htol : isValidToleranceSi tol = true)
    (ht : t.isFinite = true) (hle : tol.le t = true) : (b.insert tol val).1.Covers t := by
  have hfinite := isFinite_of_isValidToleranceSi htol
  unfold insert
  split
  · next hany =>
    -- what refused the new entry serves its requests
    obtain ⟨e, he, hetol⟩ := List.any_eq_true.mp hany
    have hefinite := isFinite_of_isValidToleranceSi (h.valid e he)
    rw [F64.le_iff hefinite hfinite] at hetol
    rw [F64.le_iff hfinite ht] at hle
    exact ⟨e, he, (F64.le_iff hefinite ht).mpr (hetol.trans hle)⟩
  · refine ⟨(tol, val), ?_, hle⟩
    dsimp only
    split
    · next hlength =>
      -- over capacity there is a last entry behind the new one
      obtain ⟨e, es, hes⟩ : ∃ e es, b.entries = e :: es := by
        cases hentries : b.entries with
        | nil =>
          rw [hentries] at hlength
          exact absurd hlength (Nat.not_lt_of_le (by decide : 1 ≤ softCapacity))
        | cons e es => exact ⟨e, es, rfl⟩
      rw [hes, List.dropLast_cons_cons]
      exact List.mem_cons_self
    · exact List.mem_cons_self

/-- **A dropped entry is not missed**: what an entry served is served after an insert. -/
theorem covers_insert (h : b.WellFormed) (htol : isValidToleranceSi tol = true)
    (ht : t.isFinite = true) (hcovers : b.Covers t) : (b.insert tol val).1.Covers t := by
  by_cases haccepted : (b.insert tol val).2 = true
  · -- an accepted value is tighter than every entry, so it serves in their place
    obtain ⟨e, he, hle⟩ := hcovers
    refine covers_insert_self h htol ht ?_
    have hnot : ¬ e.1.le tol = true := fun hetol => insert_snd_iff.mp haccepted ⟨e, he, hetol⟩
    have hfinite := isFinite_of_isValidToleranceSi htol
    have hefinite := isFinite_of_isValidToleranceSi (h.valid e he)
    rw [F64.le_iff hefinite ht] at hle
    rw [F64.le_iff hefinite hfinite] at hnot
    exact (F64.le_iff hfinite ht).mpr ((Int.not_le.mp hnot).le.trans hle)
  · unfold insert at haccepted ⊢
    split
    · exact hcovers
    · next hnone =>
      rw [if_neg hnone] at haccepted
      exact absurd rfl haccepted

/-- No insert empties a bucket. -/
theorem entries_insert_ne_nil (h : b.WellFormed) (htol : isValidToleranceSi tol = true) :
    (b.insert tol val).1.entries ≠ [] := by
  have hfinite := isFinite_of_isValidToleranceSi htol
  have hcovers : (b.insert tol val).1.Covers tol :=
    covers_insert_self h htol hfinite ((F64.le_iff hfinite hfinite).mpr le_rfl)
  obtain ⟨e, he, -⟩ := hcovers
  exact List.ne_nil_of_mem he

/-! ## Looking up -/

/-- A lookup hits when some entry serves. -/
theorem isSome_lookup_iff : (b.lookup t).isSome = true ↔ b.Covers t := by
  unfold lookup Covers
  rw [List.isSome_findSome?, List.any_eq_true]
  constructor
  · rintro ⟨e, he, hsome⟩
    split at hsome
    · next hle => exact ⟨e, List.mem_reverse.mp he, hle⟩
    · cases hsome
  · rintro ⟨e, he, hle⟩
    exact ⟨e, List.mem_reverse.mpr he, by rw [if_pos hle]; rfl⟩

/-- **A lookup returns the loosest entry that serves the request.** -/
theorem lookup_eq_some_iff (h : b.WellFormed) {v : V} :
    b.lookup t = some v ↔ ∃ e ∈ b.entries, e.2 = v ∧ e.1.le t = true ∧
      ∀ e' ∈ b.entries, e'.1.le t = true → e'.1.le e.1 = true := by
  have hordered {e e' : F64 × V} (he : e ∈ b.entries) (he' : e' ∈ b.entries) :=
    F64.le_iff (isFinite_of_isValidToleranceSi (h.valid e he))
      (isFinite_of_isValidToleranceSi (h.valid e' he'))
  have hstrict {e e' : F64 × V} (he : e ∈ b.entries) (he' : e' ∈ b.entries) :=
    F64.lt_iff (isFinite_of_isValidToleranceSi (h.valid e he))
      (isFinite_of_isValidToleranceSi (h.valid e' he'))
  -- the entry the reverse scan stops at splits the others into tighter ones and
  -- such as do not serve
  have hsplit {a : F64 × V} {tighter looser : List (F64 × V)}
      (hentries : b.entries = tighter ++ a :: looser) :
      (∀ e ∈ tighter, e.1.lt a.1 = true) ∧ a ∈ b.entries := by
    have hascending := h.ascending
    rw [hentries] at hascending
    refine ⟨fun e he => (List.pairwise_append.mp hascending).2.2 e he a List.mem_cons_self, ?_⟩
    rw [hentries]
    exact List.mem_append_right _ List.mem_cons_self
  have hscan {v : V} : b.lookup t = some v ↔ ∃ tighter a looser,
      b.entries = tighter ++ a :: looser ∧ a.2 = v ∧ a.1.le t = true ∧
        ∀ e ∈ looser, ¬ e.1.le t = true := by
    unfold lookup
    rw [List.findSome?_eq_some_iff]
    constructor
    · rintro ⟨l₁, a, l₂, hreverse, hfound, hnone⟩
      rw [List.reverse_eq_iff, List.reverse_append, List.reverse_cons, List.append_assoc] at hreverse
      refine ⟨l₂.reverse, a, l₁.reverse, hreverse, ?_⟩
      split at hfound
      · next hle =>
        refine ⟨Option.some.inj hfound, hle, fun e he hserves => ?_⟩
        have := hnone e (List.mem_reverse.mp he)
        rw [if_pos hserves] at this
        cases this
      · cases hfound
    · rintro ⟨tighter, a, looser, hentries, rfl, hle, hnone⟩
      refine ⟨looser.reverse, a, tighter.reverse, ?_, by rw [if_pos hle], fun e he => ?_⟩
      · rw [hentries, List.reverse_append, List.reverse_cons, List.append_assoc]
        rfl
      · rw [if_neg (hnone e (List.mem_reverse.mp he))]
  rw [hscan]
  constructor
  · rintro ⟨tighter, a, looser, hentries, rfl, hle, hnone⟩
    obtain ⟨htighter, ha⟩ := hsplit hentries
    refine ⟨a, ha, rfl, hle, fun e he hserves => ?_⟩
    rw [hordered he ha]
    rw [hentries] at he
    rcases List.mem_append.mp he with hmem | hmem
    · have hlt := htighter e hmem
      rw [hstrict (by rwa [hentries]) ha] at hlt
      exact hlt.le
    · rcases List.mem_cons.mp hmem with rfl | hmem
      · exact le_rfl
      · exact absurd hserves (hnone e hmem)
  · rintro ⟨e, he, rfl, hle, hloosest⟩
    obtain ⟨v, hv⟩ := Option.isSome_iff_exists.mp (isSome_lookup_iff.mpr ⟨e, he, hle⟩)
    obtain ⟨tighter, a, looser, hentries, -, hserves, hnone⟩ := hscan.mp hv
    obtain ⟨htighter, ha⟩ := hsplit hentries
    -- the scan stops at `e` itself: it is no tighter than `a`, and it serves
    have hae := hloosest a ha hserves
    have hmem := he
    rw [hentries] at hmem
    rcases List.mem_append.mp hmem with hmem | hmem
    · have hlt := htighter e hmem
      rw [hstrict he ha] at hlt
      rw [hordered ha he] at hae
      omega
    · rcases List.mem_cons.mp hmem with rfl | hmem
      · exact ⟨tighter, e, looser, hentries, rfl, hle, hnone⟩
      · exact absurd hle (hnone e hmem)

/-! ## Removing -/

theorem mem_of_mem_remove {e : F64 × V} (he : e ∈ (b.remove tol).1.entries) : e ∈ b.entries :=
  List.mem_of_mem_eraseP he

theorem WellFormed.remove (h : b.WellFormed) (tol : F64) : (b.remove tol).1.WellFormed where
  ascending := h.ascending.sublist List.eraseP_sublist
  bounded := List.eraseP_sublist.length_le.trans h.bounded
  valid := fun e he => h.valid e (mem_of_mem_remove he)

/-- Removing the entry at a looser tolerance is not missed. -/
theorem covers_remove (h : b.WellFormed) (htol : isValidToleranceSi tol = true)
    (ht : t.isFinite = true) (hlt : t.lt tol = true) (hcovers : b.Covers t) :
    (b.remove tol).1.Covers t := by
  obtain ⟨e, he, hle⟩ := hcovers
  refine ⟨e, ?_, hle⟩
  have hfinite := isFinite_of_isValidToleranceSi htol
  have hefinite := isFinite_of_isValidToleranceSi (h.valid e he)
  have hne : ¬ e.1.equal tol = true := by
    rw [F64.equal_iff hefinite hfinite]
    rw [F64.le_iff hefinite ht] at hle
    rw [F64.lt_iff ht hfinite] at hlt
    omega
  have hmem := List.mem_eraseP_of_neg (p := fun e' : F64 × V => e'.1.equal tol) (l := b.entries) hne
  exact hmem.mpr he

end ToleranceBucket

end Reify
