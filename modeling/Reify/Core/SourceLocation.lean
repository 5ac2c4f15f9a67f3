import Reify.Foundation.Cursor
import Reify.Foundation.Utf8Text
import Mathlib.Data.UInt

/-!
# Byte offsets and line/column pairs

The presentation layer of diagnostics names places by 1-based line and column, the column in
code points.  `byteOffsetToLineCol` walks the characters up to an offset;
`lineColToByteOffsetWithOffsets` looks the line up in a table of newline offsets and counts
characters along it.  Both are scans of one cursor over the text.

A slice of the text that would panic is `none` here.

## Main definitions

* `buildLineOffsets`, `lineColToByteOffsetWithOffsets`, `byteOffsetToLineCol`: the functions of
  the source.

## Main results

* `byteOffsetToLineCol_append`: the forward scan gives the cursor behind the first part.
* `lineColToByteOffset_eq_seek`: the table lookup and the count are a seek.
-/

namespace Reify

namespace SourceLocation

open Foundation Foundation.Utf8Text

/-- `SourceSpan::PRELUDE_SENTINEL_OFFSET`, `u32::MAX`: no offset in this text. -/
def preludeSentinelOffset : ℕ := 2 ^ 32 - 1

/-- The byte offsets of the newlines, in order. -/
def buildLineOffsets (source : List Char) : List ℕ :=
  (utf8Bytes source).zipIdx.filterMap fun entry => if entry.1 = 10 then some entry.2 else none

/-- The offset `col - 1` characters along the line that starts at `lineStart`, or its end. -/
def lineOffset (source : List Char) (lineStart col : ℕ) : Option ℕ :=
  (slice source lineStart (byteLen source)).bind fun rest =>
    let newline := ((charIndices 0 rest).find? fun entry => entry.2 == '\n').map fun entry => entry.1
    let lineEnd := (newline.map fun i => lineStart + i).getD (byteLen source)
    (slice source lineStart lineEnd).map fun lineText =>
      lineStart +
        (((charIndices 0 lineText)[col - 1]?).map fun entry => entry.1).getD (byteLen lineText)

/-- The byte offset of a 1-based line and column, found through the newline table. -/
def lineColToByteOffsetWithOffsets (source : List Char) (line col : UInt32)
    (lineOffsets : List ℕ) : Option ℕ :=
  if line = 0 ∨ col = 0 then some 0
  else if line.toNat ≤ 1 then lineOffset source 0 col.toNat
  else
    match lineOffsets[line.toNat - 2]? with
    | some nl => lineOffset source (nl + 1) col.toNat
    | none => some (byteLen source)

/-- The loop of `byteOffsetToLineCol` over the characters left, from a line and column. -/
def scanLineCol (offset : ℕ) : List (ℕ × Char) → ℕ × ℕ → ℕ × ℕ
  | [], position => position
  | (i, ch) :: rest, (line, col) =>
    if offset ≤ i then (line, col)
    else scanLineCol offset rest (if ch = '\n' then (line + 1, 1) else (line, col + 1))

/-- The 1-based line and column of a byte offset; the sentinel of the prelude is `(1, 1)`. -/
def byteOffsetToLineCol (source : List Char) (offset : ℕ) : ℕ × ℕ :=
  if offset = preludeSentinelOffset then (1, 1)
  else scanLineCol offset (charIndices 0 source) (1, 1)

/-- In code points every character is one wide. -/
def codePoints (_ : Char) : ℕ := 1

theorem codePoints_eq (c : Char) : codePoints c = 1 := rfl

/-- A cursor in code points as a 1-based pair. -/
def oneBased (cur : Cursor) : ℕ × ℕ := (cur.line + 1, cur.column + 1)

/-- The cursor in code points behind a text. -/
def lineColCursor (text : List Char) : Cursor := Cursor.after '\n' codePoints ⟨0, 0⟩ text

/-! ## From an offset to its line and column -/

theorem scanLineCol_charIndices (base : ℕ) (pre post : List Char) (cur : Cursor) :
    scanLineCol (base + byteLen pre) (charIndices base (pre ++ post)) (oneBased cur) =
      oneBased (cur.after '\n' codePoints pre) := by
  induction pre generalizing base cur with
  | nil =>
    cases post with
    | nil => rfl
    | cons c post => simp [scanLineCol, oneBased]
  | cons c pre ih =>
    have hpos := Char.utf8Size_pos c
    rw [List.cons_append, charIndices_cons, oneBased, scanLineCol,
      if_neg (by rw [byteLen_cons]; omega), byteLen_cons, ← Nat.add_assoc, Cursor.after_cons, ← ih]
    congr 1
    unfold Cursor.next
    split <;> rfl

/-- At the end of a first part the scan has gone over exactly that part. -/
theorem byteOffsetToLineCol_append {pre : List Char} (post : List Char)
    (h : byteLen pre ≠ preludeSentinelOffset) :
    byteOffsetToLineCol (pre ++ post) (byteLen pre) = oneBased (lineColCursor pre) := by
  rw [byteOffsetToLineCol, if_neg h]
  have hscan := scanLineCol_charIndices 0 pre post ⟨0, 0⟩
  rwa [Nat.zero_add] at hscan

/-! ## From a line and column to the offset -/

theorem filterMap_newline_of_ne {c : Char} (h : c ≠ '\n') (base : ℕ) :
    ((String.utf8EncodeChar c).zipIdx base).filterMap
      (fun entry => if entry.1 = 10 then some entry.2 else none) = [] := by
  rw [List.filterMap_eq_nil_iff]
  intro entry hmem
  exact if_neg (ne_newline_of_mem_zipIdx h hmem)

/-- The table's `n`-th entry is where the text is cut behind its newline `n + 1`. -/
theorem getElem?_newlines (base n : ℕ) (source : List Char) :
    ((((utf8Bytes source).zipIdx base).filterMap
      fun entry => if entry.1 = 10 then some entry.2 else none)[n]?).map (fun nl => nl + 1) =
      (Cursor.splitLine '\n' (n + 1) source).map fun halves => base + byteLen halves.1 := by
  induction source generalizing base n with
  | nil => rfl
  | cons c source ih =>
    rw [utf8Bytes_cons, List.zipIdx_append, List.filterMap_append,
      Cursor.splitLine_succ_cons, Option.map_map, String.length_utf8EncodeChar]
    by_cases hc : c = '\n'
    · subst hc
      rw [if_pos rfl, utf8EncodeChar_newline]
      cases n with
      | zero => simp
      | succ n =>
        have hrest := ih (base + 1) n
        simpa [Function.comp_def, Nat.add_assoc] using hrest
    · rw [if_neg hc, filterMap_newline_of_ne hc, List.nil_append, ih]
      simp [Function.comp_def, Nat.add_assoc]

theorem getElem?_buildLineOffsets (n : ℕ) (source : List Char) :
    ((buildLineOffsets source)[n]?).map (fun nl => nl + 1) =
      (Cursor.splitLine '\n' (n + 1) source).map fun halves => byteLen halves.1 := by
  have h := getElem?_newlines 0 n source
  simpa only [buildLineOffsets, Nat.zero_add] using h

/-- Along a line that starts at `head`, the offset is reached by a seek on that line. -/
theorem lineOffset_append (head tail : List Char) (line col : ℕ) :
    lineOffset (head ++ tail) (byteLen head) col =
      some (byteLen head +
        byteLen (Cursor.seek '\n' codePoints ⟨line, col - 1⟩ ⟨line, 0⟩ tail)) := by
  have hend : ((((charIndices 0 tail).find? fun entry => entry.2 == '\n').map
      fun entry => entry.1).map fun i => byteLen head + i).getD (byteLen (head ++ tail)) =
      byteLen head + byteLen (tail.takeWhile fun c => c ≠ '\n') := by
    have hfind := find?_charIndices_getD 0 '\n' tail
    rw [Nat.zero_add, Nat.zero_add] at hfind
    rw [byteLen_append, ← hfind]
    cases (charIndices 0 tail).find? fun entry => entry.2 == '\n' <;> rfl
  have htext := slice_append head (tail.takeWhile fun c => c ≠ '\n')
    (tail.dropWhile fun c => c ≠ '\n')
  rw [List.append_assoc, List.takeWhile_append_dropWhile] at htext
  have hnth := getElem?_charIndices_getD 0 (col - 1) (tail.takeWhile fun c => c ≠ '\n')
  rw [Nat.zero_add, Nat.zero_add] at hnth
  rw [lineOffset, slice_to_end, Option.bind_some]
  simp only [hend, htext, Option.map_some, hnth]
  rw [Cursor.seek_row codePoints_eq, Nat.sub_zero]

/-- The table lookup and the count along the line are one seek, for every line and column that
are not zero. -/
theorem lineColToByteOffset_eq_seek (source : List Char) {line col : UInt32} (hline : line ≠ 0)
    (hcol : col ≠ 0) :
    lineColToByteOffsetWithOffsets source line col (buildLineOffsets source) =
      some (byteLen (Cursor.seek '\n' codePoints ⟨line.toNat - 1, col.toNat - 1⟩ ⟨0, 0⟩ source)) := by
  have hpos : line.toNat ≠ 0 := fun h => hline (UInt32.toNat_inj.mp h)
  rw [lineColToByteOffsetWithOffsets, if_neg (not_or.mpr ⟨hline, hcol⟩)]
  by_cases hfirst : line.toNat ≤ 1
  · have hone : line.toNat - 1 = 0 := by omega
    have hrow := lineOffset_append [] source 0 col.toNat
    rw [if_pos hfirst, hone]
    simpa using hrow
  · obtain ⟨n, hn⟩ : ∃ n, line.toNat = n + 2 := ⟨line.toNat - 2, by omega⟩
    have htable := getElem?_buildLineOffsets n source
    have hsub : line.toNat - 2 = n := by omega
    have htarget : line.toNat - 1 = 0 + (n + 1) := by omega
    rw [if_neg hfirst, hsub, htarget]
    cases hsplit : Cursor.splitLine '\n' (n + 1) source with
    | none =>
      -- No such line: the table has no entry, and the seek passes over the whole text.
      rw [hsplit, Option.map_none, Option.map_eq_none_iff] at htable
      rw [htable, Cursor.seek_of_splitLine_eq_none hsplit rfl]
    | some halves =>
      obtain ⟨head, tail⟩ := halves
      rw [hsplit, Option.map_some, Option.map_eq_some_iff] at htable
      obtain ⟨nl, hget, hnl⟩ := htable
      rw [hget]
      simp only [hnl]
      rw [Cursor.seek_of_splitLine hsplit (Nat.succ_pos n) rfl, byteLen_append,
        Cursor.splitLine_append hsplit]
      exact lineOffset_append head tail _ col.toNat

end SourceLocation

end Reify
