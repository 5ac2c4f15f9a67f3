import Mathlib.Algebra.BigOperators.Group.List.Basic
import Mathlib.Algebra.GroupWithZero.Nat
import Mathlib.Data.List.Count

/-!
# Text in UTF-8

A text is its list of Unicode scalar values.  Its bytes, the byte offsets of its characters
and the cuts and slices at byte offsets are functions of that list; a cut exists exactly at
a character boundary, which is an offset that the bytes of some first part of the text fill.

## Main definitions

* `utf8Bytes`, `byteLen`: the encoded text and its length.
* `charIndices`: every character with the offset of its first byte.
* `splitAt`, `isCharBoundary`, `slice`: cutting at byte offsets.

## Main results

* `splitAt_eq_some`: what a cut gives.
* `isCharBoundary_iff`: the boundaries are the lengths of the first parts.
* `slice_append`: slicing out a middle part.
* `newline_mem_utf8EncodeChar`: only a newline's encoding holds the newline byte.
-/

namespace Foundation

namespace Utf8Text

/-- The bytes of a text. -/
def utf8Bytes (text : List Char) : List UInt8 := text.flatMap String.utf8EncodeChar

/-- How many bytes a text takes. -/
def byteLen (text : List Char) : ℕ := (text.map Char.utf8Size).sum

/-- Every character with the offset of its first byte, the first one at `base`. -/
def charIndices : ℕ → List Char → List (ℕ × Char)
  | _, [] => []
  | base, c :: text => (base, c) :: charIndices (base + c.utf8Size) text

/-- The text cut at a byte offset; there is no cut inside a character or behind the end. -/
def splitAt : List Char → ℕ → Option (List Char × List Char)
  | text, 0 => some ([], text)
  | [], _ + 1 => none
  | c :: text, i + 1 =>
    if c.utf8Size ≤ i + 1 then
      (splitAt text (i + 1 - c.utf8Size)).map fun halves => (c :: halves.1, halves.2)
    else none

/-- Whether a character starts at the offset, or the text ends there. -/
def isCharBoundary (text : List Char) (i : ℕ) : Bool := (splitAt text i).isSome

/-- The part from byte `a` up to byte `b`, where both are boundaries and in order. -/
def slice (text : List Char) (a b : ℕ) : Option (List Char) :=
  if a ≤ b then
    (splitAt text a).bind fun fromA => (splitAt fromA.2 (b - a)).map fun halves => halves.1
  else none

@[simp] theorem byteLen_nil : byteLen [] = 0 := rfl

@[simp] theorem byteLen_cons (c : Char) (text : List Char) :
    byteLen (c :: text) = c.utf8Size + byteLen text := by
  simp [byteLen]

@[simp] theorem byteLen_append (xs ys : List Char) :
    byteLen (xs ++ ys) = byteLen xs + byteLen ys := by
  simp [byteLen]

@[simp] theorem utf8Bytes_nil : utf8Bytes [] = [] := rfl

@[simp] theorem utf8Bytes_cons (c : Char) (text : List Char) :
    utf8Bytes (c :: text) = String.utf8EncodeChar c ++ utf8Bytes text := by
  simp [utf8Bytes]

@[simp] theorem utf8Bytes_append (xs ys : List Char) :
    utf8Bytes (xs ++ ys) = utf8Bytes xs ++ utf8Bytes ys := by
  simp [utf8Bytes]

@[simp] theorem length_utf8Bytes (text : List Char) : (utf8Bytes text).length = byteLen text := by
  induction text with
  | nil => rfl
  | cons c text ih => simp [ih]

@[simp] theorem charIndices_nil (base : ℕ) : charIndices base [] = [] := rfl

@[simp] theorem charIndices_cons (base : ℕ) (c : Char) (text : List Char) :
    charIndices base (c :: text) = (base, c) :: charIndices (base + c.utf8Size) text := rfl

/-- The offset of the `n`-th character, or the end, is where the first `n` characters end. -/
theorem getElem?_charIndices_getD (base n : ℕ) (text : List Char) :
    (((charIndices base text)[n]?).map fun entry => entry.1).getD (base + byteLen text) =
      base + byteLen (text.take n) := by
  induction text generalizing base n with
  | nil => simp
  | cons c text ih =>
    cases n with
    | zero => simp
    | succ n =>
      rw [charIndices_cons, List.getElem?_cons_succ, byteLen_cons, ← Nat.add_assoc, ih,
        List.take_succ_cons, byteLen_cons, Nat.add_assoc]

/-- The offset of the first `stop`, or the end, is where the characters before it end. -/
theorem find?_charIndices_getD (base : ℕ) (stop : Char) (text : List Char) :
    (((charIndices base text).find? fun entry => entry.2 == stop).map fun entry => entry.1).getD
      (base + byteLen text) = base + byteLen (text.takeWhile fun c => c ≠ stop) := by
  induction text generalizing base with
  | nil => simp
  | cons c text ih =>
    by_cases hc : c = stop
    · simp [hc]
    · rw [charIndices_cons, List.find?_cons_of_neg (by simpa using hc), byteLen_cons,
        ← Nat.add_assoc, ih, List.takeWhile_cons_of_pos (by simpa using hc), byteLen_cons,
        Nat.add_assoc]

/-! ## Cuts -/

@[simp] theorem splitAt_zero (text : List Char) : splitAt text 0 = some ([], text) := by
  cases text <;> rfl

theorem splitAt_byteLen_append (pre post : List Char) :
    splitAt (pre ++ post) (byteLen pre) = some (pre, post) := by
  induction pre with
  | nil => simp
  | cons c pre ih =>
    obtain ⟨n, hn⟩ := Nat.exists_eq_succ_of_ne_zero (Nat.ne_of_gt (Char.utf8Size_pos c))
    have hlen : byteLen (c :: pre) = n + byteLen pre + 1 := by rw [byteLen_cons]; omega
    have hsub : n + byteLen pre + 1 - c.utf8Size = byteLen pre := by omega
    rw [List.cons_append, hlen, splitAt, if_pos (by omega), hsub, ih]
    rfl

/-- What a cut gives: the first part fills the bytes up to it. -/
theorem splitAt_eq_some {text : List Char} {i : ℕ} {pre post : List Char} :
    splitAt text i = some (pre, post) ↔ text = pre ++ post ∧ byteLen pre = i := by
  constructor
  · intro h
    induction text generalizing i pre with
    | nil =>
      cases i with
      | zero => cases h; exact ⟨rfl, rfl⟩
      | succ i => cases h
    | cons c text ih =>
      cases i with
      | zero => cases h; exact ⟨rfl, rfl⟩
      | succ i =>
        rw [splitAt] at h
        split at h
        · rename_i hle
          obtain ⟨⟨pre', post'⟩, hsplit, heq⟩ := Option.map_eq_some_iff.mp h
          cases heq
          obtain ⟨rfl, hlen⟩ := ih hsplit
          refine ⟨rfl, ?_⟩
          simp only [byteLen_cons] at hlen ⊢
          omega
        · cases h
  · rintro ⟨rfl, rfl⟩
    exact splitAt_byteLen_append pre post

theorem isCharBoundary_iff {text : List Char} {i : ℕ} :
    isCharBoundary text i = true ↔ ∃ pre post, text = pre ++ post ∧ byteLen pre = i := by
  rw [isCharBoundary, Option.isSome_iff_exists]
  constructor
  · rintro ⟨⟨pre, post⟩, h⟩
    exact ⟨pre, post, splitAt_eq_some.mp h⟩
  · rintro ⟨pre, post, h⟩
    exact ⟨(pre, post), splitAt_eq_some.mpr h⟩

theorem isCharBoundary_of_isPrefix {pre text : List Char} (h : pre <+: text) :
    isCharBoundary text (byteLen pre) = true := by
  obtain ⟨post, rfl⟩ := h
  exact isCharBoundary_iff.mpr ⟨pre, post, rfl, rfl⟩

theorem isCharBoundary_byteLen (text : List Char) : isCharBoundary text (byteLen text) = true :=
  isCharBoundary_of_isPrefix (List.prefix_refl text)

theorem byteLen_le_of_isPrefix {pre text : List Char} (h : pre <+: text) :
    byteLen pre ≤ byteLen text := by
  obtain ⟨post, rfl⟩ := h
  simp

theorem le_byteLen_of_isCharBoundary {text : List Char} {i : ℕ}
    (h : isCharBoundary text i = true) : i ≤ byteLen text := by
  obtain ⟨pre, post, rfl, rfl⟩ := isCharBoundary_iff.mp h
  exact byteLen_le_of_isPrefix (List.prefix_append pre post)

/-- Of two first parts, the one with fewer bytes is the shorter one. -/
theorem exists_append_of_byteLen_lt {pre pre' post post' : List Char}
    (h : pre ++ post = pre' ++ post') (hlt : byteLen pre < byteLen pre') :
    ∃ mid, mid ≠ [] ∧ pre' = pre ++ mid := by
  rcases List.append_eq_append_iff.mp h with ⟨mid, hpre, -⟩ | ⟨mid, hpre, -⟩
  · refine ⟨mid, ?_, hpre⟩
    rintro rfl
    rw [List.append_nil] at hpre
    rw [hpre] at hlt
    exact absurd hlt (Nat.lt_irrefl _)
  · rw [hpre, byteLen_append] at hlt
    omega

/-- Slicing out the middle part. -/
theorem slice_append (pre mid post : List Char) :
    slice (pre ++ mid ++ post) (byteLen pre) (byteLen pre + byteLen mid) = some mid := by
  rw [slice, if_pos (Nat.le_add_right _ _), List.append_assoc, splitAt_byteLen_append,
    Option.bind_some, Nat.add_sub_cancel_left, splitAt_byteLen_append]
  rfl

theorem slice_to_end (pre post : List Char) :
    slice (pre ++ post) (byteLen pre) (byteLen (pre ++ post)) = some post := by
  have h := slice_append pre post []
  rwa [List.append_nil, ← byteLen_append] at h

/-! ## The newline byte -/

@[simp] theorem utf8EncodeChar_newline : String.utf8EncodeChar '\n' = [10] := by decide

@[simp] theorem utf8Size_newline : Char.utf8Size '\n' = 1 := rfl

/-- A byte with its top bit set is not a newline. -/
theorem or_ne_newline (x : UInt8) {lead : UInt8} (h : lead.toBitVec.getLsbD 7 = true) :
    x ||| lead ≠ 10 := by
  intro heq
  have hbit := congrArg (fun b : UInt8 => b.toBitVec.getLsbD 7) heq
  simp only [UInt8.toBitVec_or, BitVec.getLsbD_or, h, Bool.or_true] at hbit
  exact absurd hbit (by decide)

/-- Every byte of a longer encoding has its top bit set, and the short ones are the character
itself. -/
theorem newline_mem_utf8EncodeChar {c : Char} :
    (10 : UInt8) ∈ String.utf8EncodeChar c ↔ c = '\n' := by
  constructor
  · intro h
    rcases Char.utf8Size_eq c with hsize | hsize | hsize | hsize
    · rw [String.utf8EncodeChar_eq_singleton hsize, List.mem_singleton] at h
      have hle := Char.utf8Size_eq_one_iff.mp hsize
      apply Char.ext
      apply UInt32.toNat_inj.mp
      have hval := congrArg UInt8.toNat h
      have hle' : c.val.toNat ≤ 127 := hle
      simp only [UInt32.toNat_toUInt8, UInt8.reduceToNat] at hval
      have hnl : ('\n' : Char).val.toNat = 10 := rfl
      omega
    · rw [String.utf8EncodeChar_eq_cons_cons hsize] at h
      simp only [List.mem_cons, List.not_mem_nil, or_false] at h
      rcases h with h | h <;> exact absurd h.symm (or_ne_newline _ rfl)
    · rw [String.utf8EncodeChar_eq_cons_cons_cons hsize] at h
      simp only [List.mem_cons, List.not_mem_nil, or_false] at h
      rcases h with h | h | h <;> exact absurd h.symm (or_ne_newline _ rfl)
    · rw [String.utf8EncodeChar_eq_cons_cons_cons_cons hsize] at h
      simp only [List.mem_cons, List.not_mem_nil, or_false] at h
      rcases h with h | h | h | h <;> exact absurd h.symm (or_ne_newline _ rfl)
  · rintro rfl
    simp

theorem ne_newline_of_mem_zipIdx {c : Char} (h : c ≠ '\n') {base : ℕ} {entry : UInt8 × ℕ}
    (hmem : entry ∈ (String.utf8EncodeChar c).zipIdx base) : entry.1 ≠ 10 := by
  intro hten
  have hbyte := List.fst_mem_of_mem_zipIdx hmem
  rw [hten] at hbyte
  exact h (newline_mem_utf8EncodeChar.mp hbyte)

theorem count_newline_utf8Bytes (text : List Char) :
    (utf8Bytes text).count 10 = text.count '\n' := by
  induction text with
  | nil => rfl
  | cons c text ih =>
    rw [utf8Bytes_cons, List.count_append, ih, List.count_cons]
    by_cases hc : c = '\n'
    · subst hc
      simp [Nat.add_comm]
    · rw [List.count_eq_zero.mpr (fun hmem => hc (newline_mem_utf8EncodeChar.mp hmem))]
      simp [hc]

end Utf8Text

end Foundation
