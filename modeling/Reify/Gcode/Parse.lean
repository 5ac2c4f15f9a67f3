import Mathlib.Data.UInt
import Reify.Foundation.Decimal
import Reify.Foundation.SplitOnce
import Reify.Foundation.Words

/-!
# G-code

The commands that the two dialects share, their canonical rendering, and the parsers.  A
source is parsed line by line: a comment runs from a semicolon to the end of its line, blank
lines are skipped, and the first line that fails ends the parse with its number.

## Main definitions

* `GcodeCommand`, `GcodeCommand.display`.
* `NumberText`: how numbers are written and read.
* `parseMarlin`, `parseKlipper`.
-/

namespace Reify

open Foundation

/-! ## Commands -/

/-- A rapid or a feed move along a line. -/
structure LinearMove (F : Type) where
  rapid : Bool
  x : Option F
  y : Option F
  z : Option F
  e : Option F
  feedrate : Option F
deriving DecidableEq

/-- The sense of an arc. -/
inductive ArcDirection where
  | cw
  | ccw
deriving DecidableEq, Repr

/-- A move along an arc; `i`, `j` and `k` are the offsets of its centre. -/
structure ArcMove (F : Type) where
  direction : ArcDirection
  x : Option F
  y : Option F
  z : Option F
  i : Option F
  j : Option F
  k : Option F
  e : Option F
  feedrate : Option F
deriving DecidableEq

/-- New values for the logical position. -/
structure SetPosition (F : Type) where
  x : Option F
  y : Option F
  z : Option F
  e : Option F
deriving DecidableEq

/-- A feed rate on a line of its own. -/
structure Feedrate (F : Type) where
  value : F
deriving DecidableEq

/-- An M-code without a meaning for the trajectory, with the rest of its line. -/
structure IgnoredMCode where
  code : UInt16
  paramsRaw : String
deriving DecidableEq

/-- The keys and values of a velocity limit directive. -/
structure SetVelocityLimit where
  params : List (String × String)
deriving DecidableEq

/-- The keys and values of an input shaper directive. -/
structure InputShaper where
  params : List (String × String)
deriving DecidableEq

/-- A command of any dialect. -/
inductive GcodeCommand (F : Type) where
  | linearMove (mv : LinearMove F)
  | arcMove (mv : ArcMove F)
  | setPosition (sp : SetPosition F)
  | feedrate (fr : Feedrate F)
  | ignoredMCode (m : IgnoredMCode)
  | setVelocityLimit (svl : SetVelocityLimit)
  | inputShaper (is : InputShaper)
deriving DecidableEq

/-- Why a line does not parse. -/
inductive ParseErrorKind where
  | unknownCommand (command : String)
  | invalidParameter (letter : Char) (value : String)
  | unexpectedTrailingTokens (command : String) (tokens : List String)
  | missingCommand
deriving DecidableEq, Repr

/-- A failure with the number of its line, the first line being 1. -/
structure GcodeParseError where
  line : Nat
  kind : ParseErrorKind
deriving DecidableEq, Repr

/-! ## Numbers -/

/-- The `Display` and `FromStr` of `f64`, with its NaNs taken for one: a rendering is a
decimal expansion, `inf`, `-inf` or `NaN`, and reads back. -/
structure NumberText (F : Type) where
  display : F → String
  fromStr : List Char → Option F
  fromStr_display : ∀ v, fromStr (display v).toList = some v
  display_ne_nil : ∀ v, (display v).toList ≠ []
  display_chars : ∀ v, ∀ c ∈ (display v).toList,
    c ∈ ['0', '1', '2', '3', '4', '5', '6', '7', '8', '9', '.', '-', 'i', 'n', 'f', 'N', 'a']

/-- Natural numbers, in decimal. -/
def NumberText.naturals : NumberText Nat where
  display n := n.repr
  fromStr s := if s ≠ [] ∧ s.all Char.isDigit then some (Nat.ofDigitChars 10 s 0) else none
  fromStr_display n := by
    have hnumeral := isNumeral_toDigits n
    have hall : (Nat.toDigits 10 n).all Char.isDigit = true := List.all_eq_true.mpr hnumeral.2
    rw [Nat.toList_repr, if_pos ⟨hnumeral.1, hall⟩, Nat.ofDigitChars_ten_toDigits]
  display_ne_nil n := by
    rw [Nat.toList_repr]
    exact (isNumeral_toDigits n).1
  display_chars n c hc := by
    rw [Nat.toList_repr] at hc
    exact List.mem_append_left ['.', '-', 'i', 'n', 'f', 'N', 'a']
      (mem_digits ((isNumeral_toDigits n).2 c hc))

variable {F : Type} (num : NumberText F)

/-! ## Rendering -/

/-- A letter and its value after a space, where there is a value. -/
def writeAxis (letter : Char) : Option F → String
  | none => ""
  | some v => " " ++ letter.toString ++ num.display v

/-- The pairs of a directive, each after a space. -/
def writePairs (params : List (String × String)) : String :=
  String.join (params.map fun p => " " ++ p.1 ++ "=" ++ p.2)

def LinearMove.display (mv : LinearMove F) : String :=
  (if mv.rapid then "G0" else "G1") ++ writeAxis num 'X' mv.x ++ writeAxis num 'Y' mv.y ++
    writeAxis num 'Z' mv.z ++ writeAxis num 'E' mv.e ++ writeAxis num 'F' mv.feedrate

def ArcMove.display (mv : ArcMove F) : String :=
  (match mv.direction with
    | .cw => "G2"
    | .ccw => "G3") ++ writeAxis num 'X' mv.x ++ writeAxis num 'Y' mv.y ++ writeAxis num 'Z' mv.z ++
    writeAxis num 'I' mv.i ++ writeAxis num 'J' mv.j ++ writeAxis num 'K' mv.k ++
    writeAxis num 'E' mv.e ++ writeAxis num 'F' mv.feedrate

def SetPosition.display (sp : SetPosition F) : String :=
  "G92" ++ writeAxis num 'X' sp.x ++ writeAxis num 'Y' sp.y ++ writeAxis num 'Z' sp.z ++
    writeAxis num 'E' sp.e

def Feedrate.display (fr : Feedrate F) : String := "F" ++ num.display fr.value

def IgnoredMCode.display (m : IgnoredMCode) : String :=
  "M" ++ m.code.toNat.repr ++ (if m.paramsRaw.isEmpty then "" else " " ++ m.paramsRaw)

def SetVelocityLimit.display (svl : SetVelocityLimit) : String :=
  "SET_VELOCITY_LIMIT" ++ writePairs svl.params

def InputShaper.display (is : InputShaper) : String := "INPUT_SHAPER" ++ writePairs is.params

/-- The canonical line of a command. -/
def GcodeCommand.display : GcodeCommand F → String
  | linearMove mv => mv.display num
  | arcMove mv => mv.display num
  | setPosition sp => sp.display num
  | feedrate fr => fr.display num
  | ignoredMCode m => m.display
  | setVelocityLimit svl => svl.display
  | inputShaper is => is.display

/-- The canonical lines of commands, joined by newlines. -/
def displayAll (cs : List (GcodeCommand F)) : String :=
  String.intercalate "\n" (cs.map (·.display num))

/-! ## Lines and tokens -/

/-- `char::is_whitespace`: the Unicode property `White_Space`. -/
def isWhitespace (c : Char) : Bool :=
  (9 ≤ c.toNat && c.toNat ≤ 13) || c.toNat == 0x20 || c.toNat == 0x85 || c.toNat == 0xA0 ||
    c.toNat == 0x1680 || (0x2000 ≤ c.toNat && c.toNat ≤ 0x200A) || c.toNat == 0x2028 ||
    c.toNat == 0x2029 || c.toNat == 0x202F || c.toNat == 0x205F || c.toNat == 0x3000

/-- The line without its comment and the whitespace at its ends. -/
def stripCommentAndTrim (line : List Char) : List Char :=
  trim isWhitespace (line.takeWhile fun c => decide (c ≠ ';'))

/-- Reads the body of a parameter. -/
def parseValue (lineNo : Nat) (letter : Char) (value : List Char) : Except GcodeParseError F :=
  match num.fromStr value with
  | some v => .ok v
  | none => .error ⟨lineNo, .invalidParameter letter (String.ofList value)⟩

/-- Splits a token into its letter, in upper case, and its body. -/
def splitParam (lineNo : Nat) : List Char → Except GcodeParseError (Char × List Char)
  -- a token is not empty, which the source relies on
  | [] => .error ⟨lineNo, .missingCommand⟩
  | letter :: value =>
    if letter.isAlpha then .ok (letter.toUpper, value)
    else .error ⟨lineNo, .invalidParameter letter (String.ofList (letter :: value))⟩

/-- Reads parameters in turn; `assign` refuses a letter that the command does not have. -/
def parseAxisParams {M : Type} (lineNo : Nat) (assign : Char → F → M → Option M) (mv : M) :
    List (List Char) → Except GcodeParseError M
  | [] => .ok mv
  | tok :: toks => do
    let (letter, rawValue) ← splitParam lineNo tok
    let value ← parseValue num lineNo letter rawValue
    match assign letter value mv with
    | some mv => parseAxisParams lineNo assign mv toks
    | none => .error ⟨lineNo, .invalidParameter letter (String.ofList rawValue)⟩

/-! ## The Marlin dialect -/

def linearMove (lineNo : Nat) (rapid : Bool) (params : List (List Char)) :
    Except GcodeParseError (LinearMove F) :=
  parseAxisParams num lineNo (fun letter value mv =>
    match letter with
    | 'X' => some { mv with x := some value }
    | 'Y' => some { mv with y := some value }
    | 'Z' => some { mv with z := some value }
    | 'E' => some { mv with e := some value }
    | 'F' => some { mv with feedrate := some value }
    | _ => none) ⟨rapid, none, none, none, none, none⟩ params

def arcMove (lineNo : Nat) (direction : ArcDirection) (params : List (List Char)) :
    Except GcodeParseError (ArcMove F) :=
  parseAxisParams num lineNo (fun letter value mv =>
    match letter with
    | 'X' => some { mv with x := some value }
    | 'Y' => some { mv with y := some value }
    | 'Z' => some { mv with z := some value }
    | 'I' => some { mv with i := some value }
    | 'J' => some { mv with j := some value }
    | 'K' => some { mv with k := some value }
    | 'E' => some { mv with e := some value }
    | 'F' => some { mv with feedrate := some value }
    | _ => none) ⟨direction, none, none, none, none, none, none, none, none⟩ params

def setPosition (lineNo : Nat) (params : List (List Char)) :
    Except GcodeParseError (SetPosition F) :=
  parseAxisParams num lineNo (fun letter value sp =>
    match letter with
    | 'X' => some { sp with x := some value }
    | 'Y' => some { sp with y := some value }
    | 'Z' => some { sp with z := some value }
    | 'E' => some { sp with e := some value }
    | _ => none) ⟨none, none, none, none⟩ params

/-- An M-code with the rest of its line. -/
def ignoredMcode (code : UInt16) (line cmd : List Char) : GcodeCommand F :=
  .ignoredMCode ⟨code, String.ofList (trimStart isWhitespace (line.drop cmd.length))⟩

/-- A token that is no code is a feed rate or unknown. -/
def parseOther (lineNo : Nat) (params : List (List Char)) (other : List Char) :
    Except GcodeParseError (GcodeCommand F) :=
  match other with
  | 'F' :: body | 'f' :: body =>
    if body = [] then .error ⟨lineNo, .invalidParameter 'F' ""⟩
    else if params ≠ [] then
      .error ⟨lineNo, .unexpectedTrailingTokens (String.ofList other) (params.map String.ofList)⟩
    else do
      let value ← parseValue num lineNo 'F' body
      .ok (.feedrate ⟨value⟩)
  | _ => .error ⟨lineNo, .unknownCommand (String.ofList other)⟩

/-- Parses a line that is trimmed and not empty. -/
def parseLine (lineNo : Nat) (line : List Char) : Except GcodeParseError (GcodeCommand F) :=
  match words isWhitespace line with
  -- such a line has a first word, which the source relies on
  | [] => .error ⟨lineNo, .missingCommand⟩
  | cmd :: params =>
    if cmd = "G0".toList then (linearMove num lineNo true params).map .linearMove
    else if cmd = "G1".toList then (linearMove num lineNo false params).map .linearMove
    else if cmd = "G2".toList then (arcMove num lineNo .cw params).map .arcMove
    else if cmd = "G3".toList then (arcMove num lineNo .ccw params).map .arcMove
    else if cmd = "G92".toList then (setPosition num lineNo params).map .setPosition
    else if cmd = "M104".toList then .ok (ignoredMcode 104 line cmd)
    else if cmd = "M109".toList then .ok (ignoredMcode 109 line cmd)
    else if cmd = "M82".toList then .ok (ignoredMcode 82 line cmd)
    else if cmd = "M83".toList then .ok (ignoredMcode 83 line cmd)
    else parseOther num lineNo params cmd

/-- The loop of both parsers over the lines of a source. -/
def parseLines (line : Nat → List Char → Except GcodeParseError (GcodeCommand F)) (lineNo : Nat) :
    List (List Char) → Except GcodeParseError (List (GcodeCommand F))
  | [] => .ok []
  | raw :: raws => do
    let trimmed := stripCommentAndTrim raw
    if trimmed = [] then parseLines line (lineNo + 1) raws
    else
      let c ← line lineNo trimmed
      let cs ← parseLines line (lineNo + 1) raws
      .ok (c :: cs)

/-- Parses a source in the Marlin dialect. -/
def parseMarlin (src : String) : Except GcodeParseError (List (GcodeCommand F)) :=
  parseLines (parseLine num) 1 (src.toList.splitOn '\n')

/-! ## The Klipper dialect -/

/-- Reads `KEY=VALUE` tokens; the value may be empty, the key may not. -/
def parseKvParams (lineNo : Nat) :
    List (List Char) → Except GcodeParseError (List (String × String))
  | [] => .ok []
  | tok :: toks =>
    match splitOnce '=' tok with
    | none => .error ⟨lineNo, .invalidParameter '=' (String.ofList tok)⟩
    | some (key, value) =>
      if key = [] then .error ⟨lineNo, .invalidParameter '=' (String.ofList tok)⟩
      else do
        let rest ← parseKvParams lineNo toks
        .ok ((String.ofList key, String.ofList value) :: rest)

/-- Parses a line that is trimmed and not empty: a directive of the dialect, or a line of the
other one. -/
def parseKlipperLine (lineNo : Nat) (line : List Char) :
    Except GcodeParseError (GcodeCommand F) :=
  match words isWhitespace line with
  | [] => .error ⟨lineNo, .missingCommand⟩
  | head :: tokens =>
    if head = "SET_VELOCITY_LIMIT".toList then
      (parseKvParams lineNo tokens).map fun params => .setVelocityLimit ⟨params⟩
    else if head = "INPUT_SHAPER".toList then
      (parseKvParams lineNo tokens).map fun params => .inputShaper ⟨params⟩
    else parseLine num lineNo line

/-- Parses a source in the Klipper dialect. -/
def parseKlipper (src : String) : Except GcodeParseError (List (GcodeCommand F)) :=
  parseLines (parseKlipperLine num) 1 (src.toList.splitOn '\n')

end Reify
