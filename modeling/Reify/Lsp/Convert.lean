import Reify.Core.SourceLocation
import Mathlib.Data.List.Induction

/-!
# LSP positions

The language server names places by 0-based line and UTF-16 column.  `offsetToPosition`
snaps an offset forward to a character boundary, scans the bytes before it for newlines and
adds up the code units of the last line; `positionToOffset` scans the bytes for the line and
the characters for the column.

Both go over the same cursor as the line/column pairs of the diagnostics, with another width
for a character, and the two pairs of maps are compared here: each is inverse on character
boundaries and strictly monotone, and each way back lands on a boundary of the line it was
asked for.

A slice of the text that would panic is `none` here; the machine integers of a position wrap.

## Main definitions

* `Position`, `offsetToPosition`, `positionToOffset`: the functions of the source.
* `LandsOn`: an offset that cuts the text on a given line, or its end.

## Main results

* `offsetToPosition_append`, `positionToOffset_eq_seek`: the two scans on the cursor.
* `isCharBoundary_snapForward`, `offsetToPosition_isSome`: no offset makes the scan panic.
* `sourcePositions_spec`: round trips, monotonicity and where the ways back land.
-/

namespace Reify

namespace Convert

open Foundation Foundation.Utf8Text SourceLocation

/-- An LSP position: line and character, both from zero. -/
structure Position where
  line : UInt32
  character : UInt32
deriving DecidableEq, Repr

/-- How many UTF-16 code units a character takes. -/
def lenUtf16 (c : Char) : ℕ := if c.val ≤ 0xFFFF then 1 else 2

/-- The next boundary at or behind `i`, with `left` bytes left of the text. -/
def snapForward (source : List Char) : ℕ → ℕ → ℕ
  | 0, i => i
  | left + 1, i => if isCharBoundary source i then i else snapForward source left (i + 1)

/-- One byte of the scan for newlines: the line so far and where it starts. -/
def countLine (lines : UInt32 × ℕ) (entry : UInt8 × ℕ) : UInt32 × ℕ :=
  if entry.1 = 10 then (lines.1 + 1, entry.2 + 1) else lines

/-- The position of a byte offset. -/
def offsetToPosition (source : List Char) (offset : UInt32) : Option Position :=
  let inText := min offset.toNat (byteLen source)
  let clamped := snapForward source (byteLen source - inText) inText
  let lines := ((utf8Bytes source).zipIdx.take clamped).foldl countLine (0, 0)
  (slice source lines.2 clamped).map fun lineSlice =>
    ⟨lines.1, (lineSlice.map fun c => UInt32.ofNat (lenUtf16 c)).sum⟩

/-- The scan for the target line: the line reached and, where it is the target, its start. -/
def findLine (target : ℕ) : List (UInt8 × ℕ) → ℕ → ℕ × ℕ
  | [], current => (current, 0)
  | (byte, i) :: rest, current =>
    if byte = 10 then
      if current + 1 = target then (current + 1, i + 1) else findLine target rest (current + 1)
    else findLine target rest current

/-- The scan along a line: where the newline or the target column is reached. -/
def advanceUnits (target : ℕ) : ℕ → List (ℕ × Char) → Option ℕ
  | _, [] => none
  | units, (i, ch) :: rest =>
    if ch = '\n' ∨ target ≤ units then some i else advanceUnits target (units + lenUtf16 ch) rest

/-- The byte offset of a position. -/
def positionToOffset (source : List Char) (position : Position) : Option ℕ :=
  let targetLine := position.line.toNat
  let found := if 0 < targetLine then findLine targetLine (utf8Bytes source).zipIdx 0 else (0, 0)
  if found.1 < targetLine then some (byteLen source)
  else
    (slice source found.2 (byteLen source)).map fun lineSlice =>
      ((advanceUnits position.character.toNat 0 (charIndices 0 lineSlice)).map
        fun i => found.2 + i).getD (byteLen source)

/-- The cursor in code units behind a text. -/
def positionCursor (text : List Char) : Cursor := Cursor.after '\n' lenUtf16 ⟨0, 0⟩ text

/-- A cursor as a position; both counters wrap. -/
def positionOf (cur : Cursor) : Position := ⟨UInt32.ofNat cur.line, UInt32.ofNat cur.column⟩

theorem lenUtf16_pos (c : Char) : 0 < lenUtf16 c := by
  unfold lenUtf16
  split <;> omega

theorem lenUtf16_le_utf8Size (c : Char) : lenUtf16 c ≤ c.utf8Size := by
  unfold lenUtf16
  split
  · exact Char.utf8Size_pos c
  · rename_i hbig
    rw [Char.utf8Size_eq_four_iff.mpr (UInt32.not_le.mp hbig)]
    omega

/-! ## From an offset to its position -/

theorem snapForward_of_isCharBoundary {source : List Char} {i : ℕ}
    (h : isCharBoundary source i = true) (left : ℕ) : snapForward source left i = i := by
  cases left with
  | zero => rfl
  | succ left => exact if_pos h

/-- Wherever in the text the snap starts, it ends on a boundary. -/
theorem isCharBoundary_snapForward {source : List Char} {left i : ℕ}
    (h : i + left = byteLen source) : isCharBoundary source (snapForward source left i) = true := by
  induction left generalizing i with
  | zero =>
    rw [Nat.add_zero] at h
    rw [snapForward, h]
    exact isCharBoundary_byteLen source
  | succ left ih =>
    rw [snapForward]
    split
    · assumption
    · exact ih (by omega)

theorem foldl_countLine_of_forall_ne {entries : List (UInt8 × ℕ)}
    (h : ∀ entry ∈ entries, entry.1 ≠ 10) (lines : UInt32 × ℕ) :
    entries.foldl countLine lines = lines := by
  induction entries with
  | nil => rfl
  | cons entry entries ih =>
    obtain ⟨hentry, hentries⟩ := List.forall_mem_cons.mp h
    rw [List.foldl_cons, countLine, if_neg hentry, ih hentries]

/-- The scan of a text's bytes knows its line and where that line starts. -/
theorem exists_foldl_countLine (text : List Char) :
    ∃ head row, text = head ++ row ∧
      (utf8Bytes text).zipIdx.foldl countLine (0, 0) =
        (UInt32.ofNat (positionCursor text).line, byteLen head) ∧
      (positionCursor text).column = (row.map lenUtf16).sum := by
  induction text using List.reverseRecOn with
  | nil => exact ⟨[], [], rfl, rfl, rfl⟩
  | append_singleton text c ih =>
    obtain ⟨head, row, htext, hscan, hcolumn⟩ := ih
    have hsnoc : positionCursor (text ++ [c]) = (positionCursor text).next '\n' lenUtf16 c := by
      simp [positionCursor]
    rw [utf8Bytes_append, List.zipIdx_append, List.foldl_append, hscan, hsnoc, utf8Bytes_cons,
      utf8Bytes_nil, List.append_nil]
    by_cases hc : c = '\n'
    · -- A newline: the next line starts behind the whole text.
      subst hc
      refine ⟨text ++ ['\n'], [], (List.append_nil _).symm, ?_, by simp⟩
      rw [utf8EncodeChar_newline, Cursor.next_sep]
      simp [countLine, UInt32.ofNat_add]
    · refine ⟨head, row ++ [c], by rw [htext, List.append_assoc], ?_, ?_⟩
      · rw [foldl_countLine_of_forall_ne (fun _ => ne_newline_of_mem_zipIdx hc),
          Cursor.next_of_ne _ hc]
      · rw [Cursor.next_of_ne _ hc, hcolumn]
        simp

theorem sum_ofNat_lenUtf16 (row : List Char) :
    (row.map fun c => UInt32.ofNat (lenUtf16 c)).sum = UInt32.ofNat (row.map lenUtf16).sum := by
  induction row with
  | nil => rfl
  | cons c row ih => rw [List.map_cons, List.sum_cons, ih, List.map_cons, List.sum_cons,
      UInt32.ofNat_add]

theorem take_zipIdx_utf8Bytes (pre post : List Char) :
    (utf8Bytes (pre ++ post)).zipIdx.take (byteLen pre) = (utf8Bytes pre).zipIdx := by
  rw [utf8Bytes_append, List.zipIdx_append]
  exact List.take_left' (by simp)

/-- At the end of a first part the position is the cursor behind that part. -/
theorem offsetToPosition_append (pre post : List Char) {offset : UInt32}
    (h : offset.toNat = byteLen pre) :
    offsetToPosition (pre ++ post) offset = some (positionOf (positionCursor pre)) := by
  have hprefix : pre <+: pre ++ post := List.prefix_append pre post
  have hmin : min offset.toNat (byteLen (pre ++ post)) = byteLen pre := by
    rw [h]
    exact Nat.min_eq_left (byteLen_le_of_isPrefix hprefix)
  have hsnap := snapForward_of_isCharBoundary (isCharBoundary_of_isPrefix hprefix)
  obtain ⟨head, row, hpre, hscan, hcolumn⟩ := exists_foldl_countLine pre
  have hslice : slice (pre ++ post) (byteLen head) (byteLen pre) = some row := by
    have happend := slice_append head row post
    rwa [← hpre, ← byteLen_append, ← hpre] at happend
  simp only [offsetToPosition, hmin, hsnap, take_zipIdx_utf8Bytes, hscan, hslice, Option.map_some,
    sum_ofNat_lenUtf16, ← hcolumn]
  rfl

/-- Every offset has a position, those inside a character and behind the end included. -/
theorem offsetToPosition_isSome (source : List Char) (offset : UInt32) :
    (offsetToPosition source offset).isSome = true := by
  have hsnap : isCharBoundary source (snapForward source
      (byteLen source - min offset.toNat (byteLen source)) (min offset.toNat (byteLen source))) =
      true := isCharBoundary_snapForward (Nat.add_sub_of_le (Nat.min_le_right _ _))
  obtain ⟨pre, post, hsource, hlen⟩ := isCharBoundary_iff.mp hsnap
  obtain ⟨head, row, hpre, hscan, -⟩ := exists_foldl_countLine pre
  have hslice : slice source (byteLen head) (byteLen pre) = some row := by
    have happend := slice_append head row post
    rwa [← hpre, ← byteLen_append, ← hpre, ← hsource] at happend
  have htake : (utf8Bytes source).zipIdx.take (byteLen pre) = (utf8Bytes pre).zipIdx := by
    rw [hsource, take_zipIdx_utf8Bytes]
  simp only [offsetToPosition, ← hlen, htake, hscan, hslice, Option.map_some, Option.isSome_some]

/-! ## From a position to its offset -/

theorem findLine_append_of_forall_ne {entries : List (UInt8 × ℕ)}
    (h : ∀ entry ∈ entries, entry.1 ≠ 10) (target current : ℕ) (rest : List (UInt8 × ℕ)) :
    findLine target (entries ++ rest) current = findLine target rest current := by
  induction entries with
  | nil => rfl
  | cons entry entries ih =>
    obtain ⟨hentry, hentries⟩ := List.forall_mem_cons.mp h
    rw [List.cons_append, findLine, if_neg hentry, ih hentries]

/-- Where the line exists, the scan stops at its start. -/
theorem findLine_of_splitLine {n : ℕ} {text head tail : List Char}
    (hsplit : Cursor.splitLine '\n' n text = some (head, tail)) (hn : 0 < n) (base current : ℕ) :
    findLine (current + n) ((utf8Bytes text).zipIdx base) current =
      (current + n, base + byteLen head) := by
  induction text generalizing n head base current with
  | nil =>
    cases n with
    | zero => exact absurd hn (lt_irrefl 0)
    | succ n => cases hsplit
  | cons c text ih =>
    cases n with
    | zero => exact absurd hn (lt_irrefl 0)
    | succ n =>
      rw [Cursor.splitLine_succ_cons, Option.map_eq_some_iff] at hsplit
      obtain ⟨⟨head', tail'⟩, hsplit', heq⟩ := hsplit
      cases heq
      rw [utf8Bytes_cons, List.zipIdx_append, String.length_utf8EncodeChar, byteLen_cons,
        ← Nat.add_assoc base]
      by_cases hc : c = '\n'
      · subst hc
        rw [if_pos rfl] at hsplit'
        rw [utf8EncodeChar_newline, utf8Size_newline]
        cases n with
        | zero =>
          -- The newline in front of the target line.
          rw [Cursor.splitLine_zero] at hsplit'
          cases hsplit'
          simp [findLine]
        | succ n =>
          have hrest := ih hsplit' (Nat.succ_pos n) (base + 1) (current + 1)
          rw [show current + (n + 1 + 1) = current + 1 + (n + 1) by omega, ← hrest]
          simp [findLine]
      · rw [if_neg hc] at hsplit'
        rw [findLine_append_of_forall_ne (fun _ => ne_newline_of_mem_zipIdx hc)]
        exact ih hsplit' hn _ current

/-- Where it does not, the scan stops in front of it. -/
theorem findLine_of_splitLine_eq_none {n : ℕ} {text : List Char}
    (hsplit : Cursor.splitLine '\n' n text = none) (base current : ℕ) :
    (findLine (current + n) ((utf8Bytes text).zipIdx base) current).1 < current + n := by
  induction text generalizing n base current with
  | nil =>
    cases n with
    | zero => cases hsplit
    | succ n =>
      rw [utf8Bytes_nil, List.zipIdx_nil, findLine]
      omega
  | cons c text ih =>
    cases n with
    | zero => cases hsplit
    | succ n =>
      rw [Cursor.splitLine_succ_cons, Option.map_eq_none_iff] at hsplit
      rw [utf8Bytes_cons, List.zipIdx_append]
      by_cases hc : c = '\n'
      · subst hc
        rw [if_pos rfl] at hsplit
        have hn : n ≠ 0 := by
          rintro rfl
          rw [Cursor.splitLine_zero] at hsplit
          cases hsplit
        have hrest := ih hsplit (base + 1) (current + 1)
        rw [show current + (n + 1) = current + 1 + n by omega]
        simpa [findLine, hn] using hrest
      · rw [if_neg hc] at hsplit
        rw [findLine_append_of_forall_ne (fun _ => ne_newline_of_mem_zipIdx hc)]
        exact ih hsplit _ current

/-- Along a line the scan is a seek of code units. -/
theorem advanceUnits_getD (target line units base : ℕ) (text : List Char) :
    (advanceUnits target units (charIndices base text)).getD (base + byteLen text) =
      base + byteLen (Cursor.seek '\n' lenUtf16 ⟨line, target⟩ ⟨line, units⟩ text) := by
  induction text generalizing units base with
  | nil => simp [advanceUnits]
  | cons c text ih =>
    rw [charIndices_cons, advanceUnits]
    split
    · rename_i hstop
      have hseek : Cursor.seek '\n' lenUtf16 ⟨line, target⟩ ⟨line, units⟩ (c :: text) = [] :=
        Cursor.seek_stop text rfl hstop
      rw [hseek]
      rfl
    · rename_i hgo
      have hc : c ≠ '\n' := fun h => hgo (Or.inl h)
      rw [Cursor.seek_go text (fun h => hgo h.2), Cursor.next_of_ne _ hc, byteLen_cons,
        byteLen_cons, ← Nat.add_assoc, ← Nat.add_assoc]
      exact ih _ _

/-- Both scans together are one seek, for every position. -/
theorem positionToOffset_eq_seek (source : List Char) (position : Position) :
    positionToOffset source position =
      some (byteLen (Cursor.seek '\n' lenUtf16
        ⟨position.line.toNat, position.character.toNat⟩ ⟨0, 0⟩ source)) := by
  have hrow : ∀ head tail : List Char,
      (slice (head ++ tail) (byteLen head) (byteLen (head ++ tail))).map (fun lineSlice =>
        ((advanceUnits position.character.toNat 0 (charIndices 0 lineSlice)).map
          fun i => byteLen head + i).getD (byteLen (head ++ tail))) =
      some (byteLen (head ++ Cursor.seek '\n' lenUtf16
        ⟨position.line.toNat, position.character.toNat⟩ ⟨position.line.toNat, 0⟩ tail)) := by
    intro head tail
    have hunits := advanceUnits_getD position.character.toNat position.line.toNat 0 0 tail
    rw [Nat.zero_add, Nat.zero_add] at hunits
    rw [slice_to_end, Option.map_some, byteLen_append, byteLen_append, ← hunits]
    cases advanceUnits position.character.toNat 0 (charIndices 0 tail) <;> rfl
  rw [positionToOffset]
  by_cases hfirst : position.line.toNat = 0
  · have hstart := hrow [] source
    simp only [hfirst, lt_irrefl, if_false] at hstart ⊢
    exact hstart
  · have hpos : 0 < position.line.toNat := Nat.pos_of_ne_zero hfirst
    have htarget : position.line.toNat = 0 + position.line.toNat := (Nat.zero_add _).symm
    cases hsplit : Cursor.splitLine '\n' position.line.toNat source with
    | none =>
      have hbefore := findLine_of_splitLine_eq_none hsplit 0 0
      rw [Nat.zero_add] at hbefore
      simp only [hpos, if_true, hbefore]
      rw [Cursor.seek_of_splitLine_eq_none hsplit htarget]
    | some halves =>
      obtain ⟨head, tail⟩ := halves
      have hfound := findLine_of_splitLine hsplit hpos 0 0
      rw [Nat.zero_add, Nat.zero_add] at hfound
      simp only [hpos, if_true, hfound, lt_irrefl, if_false]
      rw [Cursor.seek_of_splitLine hsplit hpos htarget, Cursor.splitLine_append hsplit]
      exact hrow head tail

/-! ## The two pairs of maps -/

/-- How many newlines stand before a byte offset. -/
def lineAt (source : List Char) (o : ℕ) : ℕ := ((utf8Bytes source).take o).count 10

/-- An offset that cuts the text, on a given line or at the end of the text. -/
structure LandsOn (source : List Char) (line o : ℕ) : Prop where
  inBounds : o ≤ byteLen source
  boundary : isCharBoundary source o = true
  upTo : (slice source 0 o).isSome = true
  onward : (slice source o (byteLen source)).isSome = true
  onLine : lineAt source o = line ∨ o = byteLen source

theorem lineAt_append (pre post : List Char) :
    lineAt (pre ++ post) (byteLen pre) = pre.count '\n' := by
  rw [lineAt, utf8Bytes_append, List.take_left' (length_utf8Bytes pre), count_newline_utf8Bytes]

/-- A seek lands on its line, whatever a character's width is. -/
theorem landsOn_seek (source : List Char) (width : Char → ℕ) (target : Cursor) :
    LandsOn source target.line (byteLen (Cursor.seek '\n' width target ⟨0, 0⟩ source)) := by
  obtain ⟨post, hpost⟩ : Cursor.seek '\n' width target ⟨0, 0⟩ source <+: source :=
    Cursor.seek_isPrefix target ⟨0, 0⟩ source
  have hlanding : (Cursor.after '\n' width ⟨0, 0⟩
      (Cursor.seek '\n' width target ⟨0, 0⟩ source)).line = target.line ∨
      Cursor.seek '\n' width target ⟨0, 0⟩ source = source :=
    Cursor.line_after_seek (Nat.zero_le target.line) source
  generalize Cursor.seek '\n' width target ⟨0, 0⟩ source = pre at hpost hlanding
  subst hpost
  have hboundary := isCharBoundary_of_isPrefix (List.prefix_append pre post)
  have hupTo := slice_append [] pre post
  rw [byteLen_nil, Nat.zero_add, List.nil_append] at hupTo
  constructor
  case inBounds => exact le_byteLen_of_isCharBoundary hboundary
  case boundary => exact hboundary
  case upTo => rw [hupTo]; rfl
  case onward => rw [slice_to_end]; rfl
  case onLine =>
    rcases hlanding with hline | hall
    · left
      rw [Cursor.line_after, Nat.zero_add] at hline
      rw [lineAt_append, hline]
    · right
      rw [← hall]

theorem toNat_ofNat_of_short {n : ℕ} (h : n < 2 ^ 32) : (UInt32.ofNat n).toNat = n :=
  UInt32.toNat_ofNat_of_lt' h

/-- In a short text no position wraps. -/
theorem line_add_column_lt {pre : List Char} {width : Char → ℕ}
    (hwidth : ∀ c, width c ≤ c.utf8Size) (h : byteLen pre < 2 ^ 32 - 1) :
    (Cursor.after '\n' width ⟨0, 0⟩ pre).line + (Cursor.after '\n' width ⟨0, 0⟩ pre).column <
      2 ^ 32 - 1 := by
  have hsep : 1 ≤ Char.utf8Size '\n' := le_rfl
  have hle := Cursor.line_add_column_after_le hsep hwidth ⟨0, 0⟩ pre
  exact lt_of_le_of_lt (by simpa [byteLen] using hle) h

/-- From a boundary to its position and back. -/
theorem positionToOffset_offsetToPosition {source : List Char}
    (hlen : byteLen source < 2 ^ 32 - 1) {o : ℕ} (ho : isCharBoundary source o = true) :
    (offsetToPosition source (UInt32.ofNat o)).bind (positionToOffset source) = some o := by
  obtain ⟨pre, post, rfl, rfl⟩ := isCharBoundary_iff.mp ho
  have hpre : byteLen pre < 2 ^ 32 - 1 := (le_byteLen_of_isCharBoundary ho).trans_lt hlen
  have hbound : (positionCursor pre).line + (positionCursor pre).column < 2 ^ 32 - 1 :=
    line_add_column_lt lenUtf16_le_utf8Size hpre
  rw [offsetToPosition_append pre post (toNat_ofNat_of_short (by omega)), Option.bind_some,
    positionToOffset_eq_seek, positionOf, toNat_ofNat_of_short (by omega),
    toNat_ofNat_of_short (by omega)]
  exact congrArg (fun passed => some (byteLen passed))
    (Cursor.seek_after lenUtf16_pos ⟨0, 0⟩ pre post)

/-- From a boundary to its line and column and back. -/
theorem lineColToByteOffset_byteOffsetToLineCol {source : List Char}
    (hlen : byteLen source < 2 ^ 32 - 1) {o : ℕ} (ho : isCharBoundary source o = true) :
    lineColToByteOffsetWithOffsets source (UInt32.ofNat (byteOffsetToLineCol source o).1)
      (UInt32.ofNat (byteOffsetToLineCol source o).2) (buildLineOffsets source) = some o := by
  obtain ⟨pre, post, rfl, rfl⟩ := isCharBoundary_iff.mp ho
  have hpre : byteLen pre < 2 ^ 32 - 1 := (le_byteLen_of_isCharBoundary ho).trans_lt hlen
  have hbound : (lineColCursor pre).line + (lineColCursor pre).column < 2 ^ 32 - 1 :=
    line_add_column_lt Char.utf8Size_pos hpre
  have hne : ∀ n : ℕ, n + 1 < 2 ^ 32 → UInt32.ofNat (n + 1) ≠ 0 := by
    intro n hn h
    have hzero := congrArg UInt32.toNat h
    rw [toNat_ofNat_of_short hn] at hzero
    exact Nat.succ_ne_zero n hzero
  rw [byteOffsetToLineCol_append post hpre.ne, oneBased,
    lineColToByteOffset_eq_seek _ (hne _ (by omega)) (hne _ (by omega)),
    toNat_ofNat_of_short (by omega), toNat_ofNat_of_short (by omega),
    Nat.add_sub_cancel, Nat.add_sub_cancel]
  exact congrArg (fun passed => some (byteLen passed))
    (Cursor.seek_after (fun _ => Nat.one_pos) ⟨0, 0⟩ pre post)

/-- Both forward maps grow with the offset, line first. -/
theorem forward_strictMono {source : List Char} (hlen : byteLen source < 2 ^ 32 - 1) {o o' : ℕ}
    (ho : isCharBoundary source o = true) (ho' : isCharBoundary source o' = true) (hlt : o < o') :
    (∃ p p', offsetToPosition source (UInt32.ofNat o) = some p ∧
      offsetToPosition source (UInt32.ofNat o') = some p' ∧
      toLex (p.line, p.character) < toLex (p'.line, p'.character)) ∧
    toLex (byteOffsetToLineCol source o) < toLex (byteOffsetToLineCol source o') := by
  obtain ⟨pre, post, hsource, rfl⟩ := isCharBoundary_iff.mp ho
  obtain ⟨pre', post', hsource', rfl⟩ := isCharBoundary_iff.mp ho'
  obtain ⟨mid, hmid, hpre'⟩ := exists_append_of_byteLen_lt (hsource ▸ hsource') hlt
  have hbyte' : byteLen pre' < 2 ^ 32 - 1 := (le_byteLen_of_isCharBoundary ho').trans_lt hlen
  have hbyte : byteLen pre < 2 ^ 32 - 1 := hlt.trans hbyte'
  constructor
  · have hbound : (positionCursor pre).line + (positionCursor pre).column < 2 ^ 32 - 1 :=
      line_add_column_lt lenUtf16_le_utf8Size hbyte
    have hbound' : (positionCursor pre').line + (positionCursor pre').column < 2 ^ 32 - 1 :=
      line_add_column_lt lenUtf16_le_utf8Size hbyte'
    refine ⟨positionOf (positionCursor pre), positionOf (positionCursor pre'), ?_, ?_, ?_⟩
    · rw [hsource]
      exact offsetToPosition_append pre post (toNat_ofNat_of_short (by omega))
    · rw [hsource']
      exact offsetToPosition_append pre' post' (toNat_ofNat_of_short (by omega))
    · have hkey : (positionCursor pre).key < (positionCursor pre').key := by
        rw [hpre', positionCursor, positionCursor, Cursor.after_append]
        exact Cursor.key_lt_after lenUtf16_pos _ hmid
      rw [Cursor.key_lt_key] at hkey
      rw [Prod.Lex.toLex_lt_toLex]
      simp only [positionOf, UInt32.lt_iff_toNat_lt, ← UInt32.toNat_inj]
      rwa [toNat_ofNat_of_short (by omega), toNat_ofNat_of_short (by omega),
        toNat_ofNat_of_short (by omega), toNat_ofNat_of_short (by omega)]
  · have hkey : (lineColCursor pre).key < (lineColCursor pre').key := by
      rw [hpre', lineColCursor, lineColCursor, Cursor.after_append]
      exact Cursor.key_lt_after (fun _ => Nat.one_pos) _ hmid
    have hat : byteOffsetToLineCol source (byteLen pre) = oneBased (lineColCursor pre) := by
      rw [hsource, byteOffsetToLineCol_append post hbyte.ne]
    have hat' : byteOffsetToLineCol source (byteLen pre') = oneBased (lineColCursor pre') := by
      rw [hsource', byteOffsetToLineCol_append post' hbyte'.ne]
    rw [Cursor.key_lt_key] at hkey
    rw [hat, hat', oneBased, oneBased, Prod.Lex.toLex_lt_toLex]
    simp only
    omega

/-- A line or column of zero falls back to the start of the text. -/
theorem lineColToByteOffset_of_zero (source : List Char) {line col : UInt32}
    (h : line = 0 ∨ col = 0) (lineOffsets : List ℕ) :
    lineColToByteOffsetWithOffsets source line col lineOffsets = some 0 :=
  if_pos h

/-- On every character boundary of a text shorter than `u32::MAX` bytes both pairs of maps are
inverse and both forward maps grow; every LSP position leads to a boundary of its line or to the
end, and so does every line and column from 1 on, a zero leading to the start of the text. -/
theorem sourcePositions_spec (source : List Char) (hlen : byteLen source < 2 ^ 32 - 1) :
    (∀ o, isCharBoundary source o = true →
      (offsetToPosition source (UInt32.ofNat o)).bind (positionToOffset source) = some o ∧
      lineColToByteOffsetWithOffsets source (UInt32.ofNat (byteOffsetToLineCol source o).1)
        (UInt32.ofNat (byteOffsetToLineCol source o).2) (buildLineOffsets source) = some o) ∧
    (∀ o o', isCharBoundary source o = true → isCharBoundary source o' = true → o < o' →
      (∃ p p', offsetToPosition source (UInt32.ofNat o) = some p ∧
        offsetToPosition source (UInt32.ofNat o') = some p' ∧
        toLex (p.line, p.character) < toLex (p'.line, p'.character)) ∧
      toLex (byteOffsetToLineCol source o) < toLex (byteOffsetToLineCol source o')) ∧
    (∀ position, ∃ o, positionToOffset source position = some o ∧
      LandsOn source position.line.toNat o) ∧
    (∀ line col, ∃ o,
      lineColToByteOffsetWithOffsets source line col (buildLineOffsets source) = some o ∧
        (line ≠ 0 → col ≠ 0 → LandsOn source (line.toNat - 1) o) ∧
        (line = 0 ∨ col = 0 → o = 0)) := by
  refine ⟨?_, ?_, ?_, ?_⟩
  · intro o ho
    exact ⟨positionToOffset_offsetToPosition hlen ho,
      lineColToByteOffset_byteOffsetToLineCol hlen ho⟩
  · intro o o' ho ho' hlt
    exact forward_strictMono hlen ho ho' hlt
  · intro position
    exact ⟨_, positionToOffset_eq_seek source position,
      landsOn_seek source lenUtf16 ⟨position.line.toNat, position.character.toNat⟩⟩
  · intro line col
    by_cases hzero : line = 0 ∨ col = 0
    · refine ⟨0, lineColToByteOffset_of_zero source hzero _, ?_, fun _ => rfl⟩
      intro hline hcol
      exact absurd hzero (not_or.mpr ⟨hline, hcol⟩)
    · obtain ⟨hline, hcol⟩ := not_or.mp hzero
      refine ⟨_, lineColToByteOffset_eq_seek source hline hcol, ?_, fun h => absurd h hzero⟩
      intro _ _
      exact landsOn_seek source codePoints ⟨line.toNat - 1, col.toNat - 1⟩

/-- Two-, four- and one-byte characters, an empty line and a final newline. -/
theorem sourcePositions_spec_mixed :
    byteLen ['é', '𝄞', 'b', '\n', '\n', 'z', '\n'] < 2 ^ 32 - 1 ∧
      isCharBoundary ['é', '𝄞', 'b', '\n', '\n', 'z', '\n'] 6 = true ∧
      (offsetToPosition ['é', '𝄞', 'b', '\n', '\n', 'z', '\n'] 6).bind
        (positionToOffset ['é', '𝄞', 'b', '\n', '\n', 'z', '\n']) = some 6 :=
  ⟨by decide, by decide, ((sourcePositions_spec _ (by decide)).1 6 (by decide)).1⟩

/-- A column of zero on the second line leads to the first line. -/
theorem not_landsOn_column_zero :
    ¬ ∀ source : List Char, byteLen source < 2 ^ 32 - 1 → ∀ line col : UInt32, ∃ o,
      lineColToByteOffsetWithOffsets source line col (buildLineOffsets source) = some o ∧
        LandsOn source (line.toNat - 1) o := by
  intro h
  obtain ⟨o, ho, hlands⟩ := h ['a', '\n', 'b'] (by decide) 2 0
  rw [lineColToByteOffset_of_zero _ (Or.inr rfl)] at ho
  cases ho
  rcases hlands.onLine with hline | hend
  · exact absurd hline (by decide)
  · exact absurd hend (by decide)

end Convert

end Reify
