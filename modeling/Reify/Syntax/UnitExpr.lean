import Mathlib.Data.List.Basic
import Reify.Foundation.Decimal

/-!
# Unit expressions

The unit part of a quantity literal: names, products and quotients that associate
to the left, and powers that bind tighter.

## Main definitions

* `UnitExpr`: the syntax tree.
* `UnitToken`, `tokenize`: the tokens of a text.
* `parseUnitExpr`: the tree of a text.
* `Factor`, `Factor.text`, `opsText`: texts of factors joined by operators.

## Main results

* `parseUnitExpr_factors`: a text of factors parses to the left-nested tree.
-/

namespace Reify

open Foundation

/-- A unit expression. -/
inductive UnitExpr where
  | unit (name : String)
  | mul (a b : UnitExpr)
  | div (a b : UnitExpr)
  | pow (a : UnitExpr) (n : Int32)
deriving DecidableEq, Repr

/-! ## Tokens -/

/-- A token of a unit expression; a power carries its exponent. -/
inductive UnitToken where
  | name (s : String)
  | mul
  | div
  | pow (n : Int32)
  | lparen
  | rparen
deriving DecidableEq, Repr

/-- The first character of a name. -/
def isNameStart (c : Char) : Bool := c.isAlpha || c == '_'

/-- The later characters of a name. -/
def isNameChar (c : Char) : Bool := c.isAlphanum || c == '_'

/-- The characters that a unit expression starts with. -/
def isUnitStart (c : Char) : Bool := isNameStart c || c == '('

/-- The longest `-?\d+` at the start of a text. -/
def signedInteger : List Char → Option (Int × List Char)
  | '-' :: s =>
    if s.takeWhile Char.isDigit = [] then none
    else some (-(Nat.ofDigitChars 10 (s.takeWhile Char.isDigit) 0 : Int), s.dropWhile Char.isDigit)
  | s =>
    if s.takeWhile Char.isDigit = [] then none
    else some (Nat.ofDigitChars 10 (s.takeWhile Char.isDigit) 0, s.dropWhile Char.isDigit)

theorem length_dropWhile_le {α : Type} (p : α → Bool) (s : List α) :
    (s.dropWhile p).length ≤ s.length :=
  (List.dropWhile_suffix p).length_le

theorem length_of_signedInteger {s rest : List Char} {n : Int}
    (h : signedInteger s = some (n, rest)) : rest.length ≤ s.length := by
  unfold signedInteger at h
  split at h
  · next s' =>
    split at h
    · cases h
    · obtain ⟨-, rfl⟩ := Prod.mk.inj (Option.some.inj h)
      exact Nat.le_trans (length_dropWhile_le _ _) (Nat.le_succ _)
  · split at h
    · cases h
    · obtain ⟨-, rfl⟩ := Prod.mk.inj (Option.some.inj h)
      exact length_dropWhile_le _ _

/-- The tokens of a text.  An operator stands right before what can start a unit
expression, and a power right before its exponent, which fits an `i32`. -/
def tokenize : List Char → Option (List UnitToken)
  | [] => some []
  | c :: s =>
    if isNameStart c then
      (tokenize (s.dropWhile isNameChar)).map
        (.name (String.ofList (c :: s.takeWhile isNameChar)) :: ·)
    else if c = '(' then (tokenize s).map (.lparen :: ·)
    else if c = ')' then (tokenize s).map (.rparen :: ·)
    else if c = '*' ∨ c = '·' then
      if s.head?.any isUnitStart then (tokenize s).map (.mul :: ·) else none
    else if c = '/' then
      if s.head?.any isUnitStart then (tokenize s).map (.div :: ·) else none
    else if c = '^' then
      match h : signedInteger s with
      | some (n, rest) =>
        if -2 ^ 31 ≤ n ∧ n < 2 ^ 31 then (tokenize rest).map (.pow (Int32.ofInt n) :: ·) else none
      | none => none
    else none
termination_by s => s.length
decreasing_by
  all_goals simp only [List.length_cons]
  all_goals try omega
  · have := length_dropWhile_le isNameChar s
    omega
  · have := length_of_signedInteger h
    omega

/-! ## The parser -/

/-- The powers that follow a base. -/
def parsePows (e : UnitExpr) : List UnitToken → UnitExpr × List UnitToken
  | .pow n :: ts => parsePows (.pow e n) ts
  | ts => (e, ts)

/-- A name or a parenthesized expression, and its powers. -/
def parseFactor (parseExpr : List UnitToken → Option (UnitExpr × List UnitToken)) :
    List UnitToken → Option (UnitExpr × List UnitToken)
  | .name s :: ts => some (parsePows (.unit s) ts)
  | .lparen :: ts =>
    match parseExpr ts with
    | some (e, .rparen :: ts) => some (parsePows e ts)
    | _ => none
  | _ => none

/-- The operators and factors that follow an operand, from the left. -/
def parseOps (factor : List UnitToken → Option (UnitExpr × List UnitToken)) :
    Nat → UnitExpr → List UnitToken → Option (UnitExpr × List UnitToken)
  | fuel + 1, e, .mul :: ts => (factor ts).bind fun r => parseOps factor fuel (.mul e r.1) r.2
  | fuel + 1, e, .div :: ts => (factor ts).bind fun r => parseOps factor fuel (.div e r.1) r.2
  | _, e, ts => some (e, ts)

/-- An expression; the fuel bounds the nesting of parentheses. -/
def parseExpr : Nat → List UnitToken → Option (UnitExpr × List UnitToken)
  | 0, _ => none
  | fuel + 1, ts =>
    (parseFactor (parseExpr fuel) ts).bind fun r =>
      parseOps (parseFactor (parseExpr fuel)) ts.length r.1 r.2

/-- The tree of a text that is a unit expression to its end. -/
def parseUnitExpr (s : String) : Option UnitExpr :=
  (tokenize s.toList).bind fun ts =>
    match parseExpr (ts.length + 1) ts with
    | some (e, []) => some e
    | _ => none

/-! ## Texts of factors -/

/-- How an `i8` is displayed. -/
def displayInt8 (n : Int8) : String :=
  if n.toInt < 0 then "-" ++ n.toInt.natAbs.repr else n.toInt.natAbs.repr

/-- A symbol and its exponent. -/
structure Factor where
  symbol : String
  exponent : Int8

namespace Factor

/-- `ri_unit_factor`: the exponent `1` is left out. -/
def text (f : Factor) : String :=
  if f.exponent = 1 then f.symbol else f.symbol ++ "^" ++ displayInt8 f.exponent

/-- The tree of a factor. -/
def tree (f : Factor) : UnitExpr :=
  if f.exponent = 1 then .unit f.symbol else .pow (.unit f.symbol) f.exponent.toInt32

/-- The tokens of a factor. -/
def tokens (f : Factor) : List UnitToken :=
  if f.exponent = 1 then [.name f.symbol] else [.name f.symbol, .pow f.exponent.toInt32]

/-- The symbol is a name. -/
def Named (f : Factor) : Prop :=
  ∃ c cs, f.symbol.toList = c :: cs ∧ isNameStart c = true ∧ ∀ x ∈ cs, isNameChar x = true

end Factor

/-- One of the two operators. -/
inductive UnitOp where
  | mul
  | div
deriving DecidableEq, Repr

namespace UnitOp

/-- The operator's character. -/
def char : UnitOp → Char
  | mul => '*'
  | div => '/'

/-- The operator's token. -/
def token : UnitOp → UnitToken
  | mul => .mul
  | div => .div

/-- The tree of two operands. -/
def apply : UnitOp → UnitExpr → UnitExpr → UnitExpr
  | mul => .mul
  | div => .div

end UnitOp

/-- Factors, each behind its operator. -/
def opsText (fs : List (UnitOp × Factor)) : List Char :=
  fs.flatMap fun f => f.1.char :: f.2.text.toList

/-- The tokens of factors behind their operators. -/
def opsTokens (fs : List (UnitOp × Factor)) : List UnitToken :=
  fs.flatMap fun f => f.1.token :: f.2.tokens

/-- The operators applied from the left. -/
def opsTree (e : UnitExpr) (fs : List (UnitOp × Factor)) : UnitExpr :=
  fs.foldl (fun e f => f.1.apply e f.2.tree) e

/-- Nothing that follows could belong to the token before it. -/
def Delimited (rest : List Char) : Prop :=
  ∀ c, rest.head? = some c → isNameChar c = false ∧ c ≠ '^'

theorem delimited_opsText (fs : List (UnitOp × Factor)) : Delimited (opsText fs) := by
  intro c hc
  cases fs with
  | nil => cases hc
  | cons f fs =>
    obtain rfl := Option.some.inj hc
    cases f.1 with
    | mul => exact ⟨by decide, by decide⟩
    | div => exact ⟨by decide, by decide⟩

/-! ### Tokens of a text -/

theorem takeWhile_append_of_stop {α : Type} {p : α → Bool} {l rest : List α}
    (hl : ∀ a ∈ l, p a = true) (hrest : ∀ a, rest.head? = some a → p a = false) :
    (l ++ rest).takeWhile p = l ∧ (l ++ rest).dropWhile p = rest := by
  rw [List.takeWhile_append_of_pos hl, List.dropWhile_append_of_pos hl]
  cases rest with
  | nil => exact ⟨List.append_nil _, rfl⟩
  | cons a rest =>
    have ha := hrest a rfl
    rw [List.takeWhile_cons, List.dropWhile_cons, ha]
    exact ⟨List.append_nil _, rfl⟩

theorem isDigit_of_delimited {rest : List Char} (h : Delimited rest) :
    ∀ c, rest.head? = some c → c.isDigit = false := by
  intro c hc
  have hname := (h c hc).1
  unfold isNameChar Char.isAlphanum at hname
  simp only [Bool.or_eq_false_iff] at hname
  exact hname.1.2

/-- The exponent is read back, up to what follows. -/
theorem signedInteger_displayInt8 (n : Int8) {rest : List Char} (hrest : Delimited rest) :
    signedInteger ((displayInt8 n).toList ++ rest) = some (n.toInt, rest) := by
  have hdigits := isNumeral_toDigits n.toInt.natAbs
  obtain ⟨htake, hdrop⟩ := takeWhile_append_of_stop hdigits.2 (isDigit_of_delimited hrest)
  unfold displayInt8
  split
  · next hneg =>
    have htext : ("-" ++ n.toInt.natAbs.repr).toList ++ rest =
        '-' :: (Nat.toDigits 10 n.toInt.natAbs ++ rest) := by
      rw [String.toList_append, Nat.toList_repr]
      rfl
    rw [htext, signedInteger, htake, hdrop, if_neg hdigits.1, Nat.ofDigitChars_ten_toDigits]
    congr 2
    omega
  · next hneg =>
    have htext : n.toInt.natAbs.repr.toList = Nat.toDigits 10 n.toInt.natAbs := Nat.toList_repr
    obtain ⟨c, cs, hc⟩ := List.exists_cons_of_ne_nil hdigits.1
    have hcdigit := hdigits.2 c (by rw [hc]; exact List.mem_cons_self)
    have hminus : c ≠ '-' := by
      rintro rfl
      revert hcdigit
      decide
    rw [htext]
    rw [hc] at htake hdrop ⊢
    rw [signedInteger.eq_2 _ (by rintro s h; exact hminus (List.cons.inj h).1), htake, hdrop,
      if_neg (List.cons_ne_nil _ _), ← hc, Nat.ofDigitChars_ten_toDigits]
    congr 2
    omega

/-- A name is one token, up to what follows. -/
theorem tokenize_name {f : Factor} (h : f.Named) {rest : List Char}
    (hrest : ∀ c, rest.head? = some c → isNameChar c = false) :
    tokenize (f.symbol.toList ++ rest) = (tokenize rest).map (.name f.symbol :: ·) := by
  obtain ⟨c, cs, hsymbol, hc, hcs⟩ := h
  obtain ⟨htake, hdrop⟩ := takeWhile_append_of_stop hcs hrest
  rw [hsymbol, List.cons_append, tokenize, if_pos hc, htake, hdrop, ← hsymbol,
    String.ofList_toList]

/-- A power is one token, up to what follows. -/
theorem tokenize_pow (n : Int8) {rest : List Char} (hrest : Delimited rest) :
    tokenize ('^' :: ((displayInt8 n).toList ++ rest)) =
      (tokenize rest).map (.pow n.toInt32 :: ·) := by
  have hrange : -2 ^ 31 ≤ n.toInt ∧ n.toInt < 2 ^ 31 := by
    have hle := n.le_toInt
    have hlt := n.toInt_lt
    omega
  have hexponent : Int32.ofInt n.toInt = n.toInt32 := by
    rw [← Int32.toInt_inj, Int32.toInt_ofInt_of_le hrange.1 hrange.2, Int8.toInt_toInt32]
  rw [tokenize, if_neg (by decide), if_neg (by decide), if_neg (by decide), if_neg (by decide),
    if_neg (by decide), if_pos rfl]
  split
  · next m rest' hsigned =>
    rw [signedInteger_displayInt8 n hrest] at hsigned
    obtain ⟨rfl, rfl⟩ := Prod.mk.inj (Option.some.inj hsigned)
    rw [if_pos hrange, hexponent]
  · next hnone =>
    rw [signedInteger_displayInt8 n hrest] at hnone
    cases hnone

theorem tokenize_factor {f : Factor} (h : f.Named) {rest : List Char} (hrest : Delimited rest) :
    tokenize (f.text.toList ++ rest) = (tokenize rest).map (f.tokens ++ ·) := by
  unfold Factor.text Factor.tokens
  split
  · exact tokenize_name h fun c hc => (hrest c hc).1
  · have htext : (f.symbol ++ "^" ++ displayInt8 f.exponent).toList ++ rest =
        f.symbol.toList ++ '^' :: ((displayInt8 f.exponent).toList ++ rest) := by
      rw [String.toList_append, String.toList_append, List.append_assoc, List.append_assoc]
      rfl
    rw [htext, tokenize_name h, tokenize_pow f.exponent hrest, Option.map_map]
    · rfl
    · intro c hc
      obtain rfl := Option.some.inj hc
      decide

theorem isUnitStart_head {f : Factor} (h : f.Named) (rest : List Char) :
    (f.text.toList ++ rest).head?.any isUnitStart = true := by
  obtain ⟨c, cs, hsymbol, hc, -⟩ := h
  have hstart : isUnitStart c = true := by
    unfold isUnitStart
    rw [hc, Bool.true_or]
  unfold Factor.text
  split
  · rw [hsymbol]
    exact hstart
  · rw [String.toList_append, String.toList_append, hsymbol]
    exact hstart

theorem tokenize_opsText {fs : List (UnitOp × Factor)} (h : ∀ f ∈ fs, f.2.Named) :
    tokenize (opsText fs) = some (opsTokens fs) := by
  induction fs with
  | nil => exact tokenize.eq_1
  | cons f fs ih =>
    have hf := h f List.mem_cons_self
    have hrest := ih fun f' hf' => h f' (List.mem_cons_of_mem _ hf')
    have hfactor := tokenize_factor hf (delimited_opsText fs)
    rw [hrest] at hfactor
    have hstart := isUnitStart_head hf (opsText fs)
    have htext : opsText (f :: fs) = f.1.char :: (f.2.text.toList ++ opsText fs) := rfl
    have htokens : opsTokens (f :: fs) = f.1.token :: (f.2.tokens ++ opsTokens fs) := rfl
    rw [htext, htokens]
    cases f.1 with
    | mul =>
      have hchar : UnitOp.mul.char = '*' := rfl
      rw [hchar, tokenize, if_neg (by decide), if_neg (by decide), if_neg (by decide),
        if_pos (Or.inl rfl), if_pos hstart, hfactor]
      rfl
    | div =>
      have hchar : UnitOp.div.char = '/' := rfl
      rw [hchar, tokenize, if_neg (by decide), if_neg (by decide), if_neg (by decide),
        if_neg (by decide), if_pos rfl, if_pos hstart, hfactor]
      rfl

/-! ### Trees of tokens -/

theorem parsePows_opsTokens (e : UnitExpr) (fs : List (UnitOp × Factor)) :
    parsePows e (opsTokens fs) = (e, opsTokens fs) := by
  cases fs with
  | nil => rfl
  | cons f fs =>
    have htokens : opsTokens (f :: fs) = f.1.token :: (f.2.tokens ++ opsTokens fs) := rfl
    rw [htokens]
    cases f.1 with
    | mul => rfl
    | div => rfl

theorem parseFactor_tokens (parseExpr : List UnitToken → Option (UnitExpr × List UnitToken))
    (f : Factor) (fs : List (UnitOp × Factor)) :
    parseFactor parseExpr (f.tokens ++ opsTokens fs) = some (f.tree, opsTokens fs) := by
  unfold Factor.tokens Factor.tree
  split
  · exact congrArg some (parsePows_opsTokens _ fs)
  · exact congrArg some (parsePows_opsTokens _ fs)

/-- The operators are applied from the left, one for each factor. -/
theorem parseOps_opsTokens (parseExpr : List UnitToken → Option (UnitExpr × List UnitToken))
    {fuel : Nat} (e : UnitExpr) {fs : List (UnitOp × Factor)} (hfuel : fs.length ≤ fuel) :
    parseOps (parseFactor parseExpr) fuel e (opsTokens fs) = some (opsTree e fs, []) := by
  induction fs generalizing e fuel with
  | nil =>
    cases fuel with
    | zero => rfl
    | succ fuel => rfl
  | cons f fs ih =>
    obtain ⟨fuel, rfl⟩ := Nat.exists_eq_add_one_of_ne_zero (Nat.ne_zero_of_lt hfuel)
    have htokens : opsTokens (f :: fs) = f.1.token :: (f.2.tokens ++ opsTokens fs) := rfl
    have hih := ih (f.1.apply e f.2.tree) (Nat.le_of_succ_le_succ hfuel)
    rw [htokens]
    cases hop : f.1 with
    | mul =>
      have hstep : parseOps (parseFactor parseExpr) (fuel + 1) e
          (UnitOp.mul.token :: (f.2.tokens ++ opsTokens fs)) =
          (parseFactor parseExpr (f.2.tokens ++ opsTokens fs)).bind fun r =>
            parseOps (parseFactor parseExpr) fuel (.mul e r.1) r.2 := rfl
      rw [hop] at hih
      rw [hstep, parseFactor_tokens, Option.bind_some, opsTree, List.foldl_cons, hop]
      exact hih
    | div =>
      have hstep : parseOps (parseFactor parseExpr) (fuel + 1) e
          (UnitOp.div.token :: (f.2.tokens ++ opsTokens fs)) =
          (parseFactor parseExpr (f.2.tokens ++ opsTokens fs)).bind fun r =>
            parseOps (parseFactor parseExpr) fuel (.div e r.1) r.2 := rfl
      rw [hop] at hih
      rw [hstep, parseFactor_tokens, Option.bind_some, opsTree, List.foldl_cons, hop]
      exact hih

theorem length_le_opsTokens (fs : List (UnitOp × Factor)) : fs.length ≤ (opsTokens fs).length := by
  induction fs with
  | nil => exact Nat.le_refl 0
  | cons f fs ih =>
    have htokens : opsTokens (f :: fs) = f.1.token :: (f.2.tokens ++ opsTokens fs) := rfl
    rw [htokens, List.length_cons, List.length_cons, List.length_append]
    omega

/-- **A text of factors parses to the left-nested tree.** -/
theorem parseUnitExpr_factors {s : String} {f : Factor} {fs : List (UnitOp × Factor)}
    (hs : s.toList = f.text.toList ++ opsText fs) (hf : f.Named) (hfs : ∀ f ∈ fs, f.2.Named) :
    parseUnitExpr s = some (opsTree f.tree fs) := by
  have htokens : tokenize s.toList = some (f.tokens ++ opsTokens fs) := by
    rw [hs, tokenize_factor hf (delimited_opsText fs), tokenize_opsText hfs]
    rfl
  have hfuel : fs.length ≤ (f.tokens ++ opsTokens fs).length := by
    rw [List.length_append]
    exact Nat.le_trans (length_le_opsTokens fs) (Nat.le_add_left _ _)
  unfold parseUnitExpr
  rw [htokens, Option.bind_some, parseExpr, parseFactor_tokens, Option.bind_some,
    parseOps_opsTokens _ _ hfuel]

example : parseUnitExpr "m^2*kg/s^3/A" =
    some (.div (.div (.mul (.pow (.unit "m") 2) (.unit "kg")) (.pow (.unit "s") 3)) (.unit "A")) := by
  decide +kernel

end Reify
