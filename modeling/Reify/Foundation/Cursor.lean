import Mathlib.Data.Prod.Lex
import Mathlib.Data.List.Count
import Mathlib.Algebra.BigOperators.Group.List.Basic
import Mathlib.Algebra.GroupWithZero.Nat

/-!
# Lines and columns of a scan

A cursor counts the line breaks a scan has passed and the width it has covered since the
last one.  What a width is, bytes or code points or anything else, is a parameter; the line
break is one element of the alphabet and has no width of its own.

Moving forward, a cursor only grows, line first, so a place in a list and the cursor there
determine each other.  Moving back, `seek` walks a list towards a target and stops at the
first place that has reached it, or at the end of the target's line.

## Main definitions

* `Cursor`, `Cursor.key`: a line and a column, compared line first.
* `Cursor.after`: the cursor behind a list.
* `Cursor.seek`: the elements passed over on the way to a target.
* `Cursor.splitLine`: a list cut behind its `n`-th line break.

## Main results

* `Cursor.key_lt_after`: a scan of positive widths moves strictly forward.
* `Cursor.seek_after`: seeking the cursor behind a prefix passes over that prefix.
* `Cursor.line_after_seek`: a seek ends on the target's line or at the end of the list.
* `Cursor.seek_of_splitLine`, `Cursor.seek_of_splitLine_eq_none`: a seek first finds the line.
-/

namespace Foundation

/-- A line and a column, both counted from zero. -/
structure Cursor where
  line : ℕ
  column : ℕ
deriving DecidableEq, Repr

namespace Cursor

variable {α : Type*} [DecidableEq α] (sep : α) (width : α → ℕ)

/-- Cursors are compared line first. -/
def key (cur : Cursor) : ℕ ×ₗ ℕ := toLex (cur.line, cur.column)

/-- The cursor behind one more element. -/
def next (cur : Cursor) (x : α) : Cursor :=
  if x = sep then ⟨cur.line + 1, 0⟩ else ⟨cur.line, cur.column + width x⟩

/-- The cursor behind a list. -/
def after (cur : Cursor) (xs : List α) : Cursor := xs.foldl (next sep width) cur

/-- The elements passed over from `cur` towards `target`. -/
def seek (target : Cursor) : Cursor → List α → List α
  | _, [] => []
  | cur, x :: xs =>
    if cur.line = target.line ∧ (x = sep ∨ target.column ≤ cur.column) then []
    else x :: seek target (cur.next sep width x) xs

/-- A list cut behind its `n`-th line break, if it has as many. -/
def splitLine : ℕ → List α → Option (List α × List α)
  | 0, xs => some ([], xs)
  | _ + 1, [] => none
  | n + 1, x :: xs =>
    (splitLine (if x = sep then n else n + 1) xs).map fun halves => (x :: halves.1, halves.2)

variable {sep width}

theorem key_lt_key {a b : Cursor} :
    a.key < b.key ↔ a.line < b.line ∨ a.line = b.line ∧ a.column < b.column :=
  Prod.Lex.toLex_lt_toLex

@[simp] theorem next_sep (cur : Cursor) : cur.next sep width sep = ⟨cur.line + 1, 0⟩ :=
  if_pos rfl

theorem next_of_ne (cur : Cursor) {x : α} (h : x ≠ sep) :
    cur.next sep width x = ⟨cur.line, cur.column + width x⟩ :=
  if_neg h

@[simp] theorem after_nil (cur : Cursor) : cur.after sep width [] = cur := rfl

@[simp] theorem after_cons (cur : Cursor) (x : α) (xs : List α) :
    cur.after sep width (x :: xs) = (cur.next sep width x).after sep width xs := rfl

@[simp] theorem after_append (cur : Cursor) (xs ys : List α) :
    cur.after sep width (xs ++ ys) = (cur.after sep width xs).after sep width ys :=
  List.foldl_append

/-! ## Moving forward -/

theorem line_next (cur : Cursor) (x : α) :
    (cur.next sep width x).line = cur.line + if x = sep then 1 else 0 := by
  unfold next
  split <;> rfl

theorem line_after (cur : Cursor) (xs : List α) :
    (cur.after sep width xs).line = cur.line + xs.count sep := by
  induction xs generalizing cur with
  | nil => simp
  | cons x xs ih =>
    rw [after_cons, ih, line_next, List.count_cons]
    by_cases hx : x = sep
    · simp [hx]; omega
    · simp [hx]

theorem key_lt_next (hwidth : ∀ x, 0 < width x) (cur : Cursor) (x : α) :
    cur.key < (cur.next sep width x).key := by
  rw [key_lt_key]
  by_cases hx : x = sep
  · subst hx
    exact Or.inl (by simp)
  · rw [next_of_ne cur hx]
    exact Or.inr ⟨rfl, Nat.lt_add_of_pos_right (hwidth x)⟩

theorem key_le_after (hwidth : ∀ x, 0 < width x) (cur : Cursor) (xs : List α) :
    cur.key ≤ (cur.after sep width xs).key := by
  induction xs generalizing cur with
  | nil => exact le_rfl
  | cons x xs ih => exact (key_lt_next hwidth cur x).le.trans (ih _)

/-- A scan of positive widths moves strictly forward. -/
theorem key_lt_after (hwidth : ∀ x, 0 < width x) (cur : Cursor) {xs : List α} (h : xs ≠ []) :
    cur.key < (cur.after sep width xs).key := by
  cases xs with
  | nil => exact absurd rfl h
  | cons x xs => exact (key_lt_next hwidth cur x).trans_le (key_le_after hwidth _ xs)

/-- A cursor never outgrows a size that bounds every width and gives the break one unit. -/
theorem line_add_column_after_le {size : α → ℕ} (hsep : 1 ≤ size sep)
    (hsize : ∀ x, width x ≤ size x) (cur : Cursor) (xs : List α) :
    (cur.after sep width xs).line + (cur.after sep width xs).column ≤
      cur.line + cur.column + (xs.map size).sum := by
  induction xs generalizing cur with
  | nil => simp
  | cons x xs ih =>
    rw [after_cons, List.map_cons, List.sum_cons]
    have hrest := ih (cur.next sep width x)
    by_cases hx : x = sep
    · subst hx
      simp only [next_sep] at hrest ⊢
      omega
    · rw [next_of_ne cur hx] at hrest ⊢
      have hx := hsize x
      simp only at hrest ⊢
      omega

/-! ## Moving back -/

@[simp] theorem seek_nil (target cur : Cursor) : seek sep width target cur [] = [] := rfl

theorem seek_stop {target cur : Cursor} {x : α} (xs : List α) (hline : cur.line = target.line)
    (hstop : x = sep ∨ target.column ≤ cur.column) :
    seek sep width target cur (x :: xs) = [] :=
  if_pos ⟨hline, hstop⟩

theorem seek_go {target cur : Cursor} {x : α} (xs : List α)
    (h : ¬ (cur.line = target.line ∧ (x = sep ∨ target.column ≤ cur.column))) :
    seek sep width target cur (x :: xs) =
      x :: seek sep width target (cur.next sep width x) xs :=
  if_neg h

theorem seek_isPrefix (target cur : Cursor) (xs : List α) :
    seek sep width target cur xs <+: xs := by
  induction xs generalizing cur with
  | nil => exact List.nil_prefix
  | cons x xs ih =>
    rw [seek]
    split
    · exact List.nil_prefix
    · exact List.cons_prefix_cons.mpr ⟨rfl, ih _⟩

/-- Seeking the cursor behind a prefix passes over exactly that prefix. -/
theorem seek_after (hwidth : ∀ x, 0 < width x) (cur : Cursor) (pre post : List α) :
    seek sep width (cur.after sep width pre) cur (pre ++ post) = pre := by
  induction pre generalizing cur with
  | nil =>
    cases post with
    | nil => rfl
    | cons x post => exact seek_stop _ rfl (Or.inr le_rfl)
  | cons x pre ih =>
    rw [List.cons_append, after_cons, seek_go, ih]
    rintro ⟨hline, hstop⟩
    -- The target is behind `x`, so it is on a later line or further along this one.
    rcases hstop with hx | hcolumn
    · have hcount : ((cur.next sep width x).after sep width pre).line =
          (cur.next sep width x).line + pre.count sep := line_after _ pre
      rw [line_next, if_pos hx] at hcount
      omega
    · have hlt : cur.key < ((cur.next sep width x).after sep width pre).key :=
        (key_lt_next hwidth cur x).trans_le (key_le_after hwidth _ pre)
      rw [key_lt_key] at hlt
      omega

/-- A seek ends on the target's line, or it has used up the list. -/
theorem line_after_seek {target cur : Cursor} (h : cur.line ≤ target.line) (xs : List α) :
    (cur.after sep width (seek sep width target cur xs)).line = target.line ∨
      seek sep width target cur xs = xs := by
  induction xs generalizing cur with
  | nil => exact Or.inr rfl
  | cons x xs ih =>
    by_cases hstop : cur.line = target.line ∧ (x = sep ∨ target.column ≤ cur.column)
    · rw [seek_stop xs hstop.1 hstop.2]
      exact Or.inl hstop.1
    · rw [seek_go xs hstop, after_cons, List.cons.injEq]
      have hnext : (cur.next sep width x).line ≤ target.line := by
        rw [line_next]
        split
        · rename_i hx
          have hne : cur.line ≠ target.line := fun hline => hstop ⟨hline, Or.inl hx⟩
          omega
        · exact h
      rcases ih hnext with hline | hall
      · exact Or.inl hline
      · exact Or.inr ⟨rfl, hall⟩

/-- On its line, a seek of unit widths counts elements up to the break. -/
theorem seek_row (hwidth : ∀ x, width x = 1) (line column k : ℕ) (xs : List α) :
    seek sep width ⟨line, column⟩ ⟨line, k⟩ xs =
      (xs.takeWhile fun x => x ≠ sep).take (column - k) := by
  induction xs generalizing k with
  | nil => simp
  | cons x xs ih =>
    by_cases hx : x = sep
    · rw [List.takeWhile_cons_of_neg (by simpa using hx), List.take_nil]
      exact seek_stop xs rfl (Or.inl hx)
    · rw [List.takeWhile_cons_of_pos (by simpa using hx)]
      rcases Nat.lt_or_ge k column with hlt | hge
      · rw [seek_go xs (by rintro ⟨-, hstop | hstop⟩; exacts [hx hstop, by simp at hstop; omega]),
          next_of_ne _ hx, hwidth, ih, show column - k = column - (k + 1) + 1 by omega,
          List.take_succ_cons]
      · rw [Nat.sub_eq_zero_of_le hge, List.take_zero]
        exact seek_stop xs rfl (Or.inr hge)

/-! ## Finding the line first -/

@[simp] theorem splitLine_zero (xs : List α) : splitLine sep 0 xs = some ([], xs) := by
  cases xs <;> rfl

theorem splitLine_succ_cons (n : ℕ) (x : α) (xs : List α) :
    splitLine sep (n + 1) (x :: xs) =
      (splitLine sep (if x = sep then n else n + 1) xs).map
        fun halves => (x :: halves.1, halves.2) := rfl

theorem splitLine_append {n : ℕ} {xs head tail : List α}
    (h : splitLine sep n xs = some (head, tail)) : xs = head ++ tail := by
  induction xs generalizing n head with
  | nil =>
    cases n with
    | zero => cases h; rfl
    | succ n => cases h
  | cons x xs ih =>
    cases n with
    | zero => cases h; rfl
    | succ n =>
      rw [splitLine_succ_cons, Option.map_eq_some_iff] at h
      obtain ⟨⟨head', tail'⟩, hsplit, heq⟩ := h
      cases heq
      rw [ih hsplit, List.cons_append]

/-- Where the line exists, a seek passes to its start and goes on there. -/
theorem seek_of_splitLine {n : ℕ} {xs head tail : List α}
    (hsplit : splitLine sep n xs = some (head, tail)) (hn : 0 < n) {target cur : Cursor}
    (hline : target.line = cur.line + n) :
    seek sep width target cur xs = head ++ seek sep width target ⟨target.line, 0⟩ tail := by
  induction xs generalizing n head cur with
  | nil =>
    cases n with
    | zero => exact absurd hn (lt_irrefl 0)
    | succ n => cases hsplit
  | cons x xs ih =>
    cases n with
    | zero => exact absurd hn (lt_irrefl 0)
    | succ n =>
      rw [splitLine_succ_cons, Option.map_eq_some_iff] at hsplit
      obtain ⟨⟨head', tail'⟩, hsplit', heq⟩ := hsplit
      cases heq
      rw [seek_go xs (by rintro ⟨heq, -⟩; omega), List.cons_append]
      congr 1
      by_cases hx : x = sep
      · rw [if_pos hx] at hsplit'
        rw [hx, next_sep]
        cases n with
        | zero =>
          -- This was the last break in front of the line.
          rw [splitLine_zero] at hsplit'
          cases hsplit'
          rw [hline]
          rfl
        | succ n => exact ih hsplit' (Nat.succ_pos n) (by simp only; omega)
      · rw [if_neg hx] at hsplit'
        rw [next_of_ne cur hx]
        exact ih hsplit' hn hline

/-- Where it does not, a seek passes over everything. -/
theorem seek_of_splitLine_eq_none {n : ℕ} {xs : List α} (hsplit : splitLine sep n xs = none)
    {target cur : Cursor} (hline : target.line = cur.line + n) :
    seek sep width target cur xs = xs := by
  induction xs generalizing n cur with
  | nil => rfl
  | cons x xs ih =>
    cases n with
    | zero => cases hsplit
    | succ n =>
      rw [splitLine_succ_cons, Option.map_eq_none_iff] at hsplit
      rw [seek_go xs (by rintro ⟨heq, -⟩; omega)]
      congr 1
      by_cases hx : x = sep
      · rw [if_pos hx] at hsplit
        rw [hx, next_sep]
        exact ih hsplit (by simp only; omega)
      · rw [if_neg hx] at hsplit
        rw [next_of_ne cur hx]
        exact ih hsplit hline

end Cursor

end Foundation
