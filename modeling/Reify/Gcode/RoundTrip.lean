import Reify.Gcode.Parse

/-!
# G-code round trips

What a parser accepts is rendered to lines that it parses to the same commands.  The Klipper
dialect accepts what the Marlin dialect does, and a failure is reported at the first line
that does not parse.

## Main definitions

* `Reparses`: a command whose line parses back to it.
* `FailsFirst`: the first line that does not parse on its own.

## Main results

* `reparses_of_parseLine`, `reparses_of_parseKlipperLine`.
* `gcode_roundTrip`.
-/

namespace Reify

open Foundation

variable {F : Type} {num : NumberText F}

/-! ## Characters and words -/

/-- A character that neither ends a token nor starts a comment. -/
structure Plain (c : Char) : Prop where
  not_space : isWhitespace c = false
  not_comment : c ≠ ';'

/-- A token that survives in a line. -/
structure PlainWord (w : List Char) : Prop where
  ne_nil : w ≠ []
  plain : ∀ c ∈ w, Plain c

instance (c : Char) : Decidable (Plain c) :=
  decidable_of_iff (isWhitespace c = false ∧ c ≠ ';') ⟨fun h => ⟨h.1, h.2⟩, fun h => ⟨h.1, h.2⟩⟩

/-- Decided along the word, not over all characters. -/
instance (priority := high) (w : List Char) : Decidable (∀ c ∈ w, Plain c) :=
  List.decidableBAll Plain w

theorem PlainWord.isWord {w : List Char} (h : PlainWord w) : IsWord isWhitespace w :=
  ⟨h.ne_nil, fun c hc => (h.plain c hc).not_space⟩

theorem plain_of_mem_display {v : F} {c : Char} (h : c ∈ (num.display v).toList) : Plain c := by
  have hall : ∀ c ∈ ['0', '1', '2', '3', '4', '5', '6', '7', '8', '9', '.', '-', 'i', 'n', 'f',
      'N', 'a'], Plain c := by decide
  exact hall c (num.display_chars v c h)

theorem PlainWord.cons {w : List Char} {c : Char} (hc : Plain c) (hw : ∀ d ∈ w, Plain d) :
    PlainWord (c :: w) := by
  refine ⟨List.cons_ne_nil c w, fun d hd => ?_⟩
  rcases List.mem_cons.mp hd with rfl | hd
  · exact hc
  · exact hw d hd

/-- A line without a comment is only trimmed. -/
theorem stripCommentAndTrim_eq_self {t : List Char} (hcomment : ';' ∉ t)
    (htight : Tight isWhitespace t) : stripCommentAndTrim t = t := by
  have htake : t.takeWhile (fun c => decide (c ≠ ';')) = t := by
    rw [List.takeWhile_eq_self_iff]
    intro c hc
    simp only [ne_eq, decide_not, Bool.not_eq_true', decide_eq_false_iff_not]
    rintro rfl
    exact hcomment hc
  rw [stripCommentAndTrim, htake, trim_eq_self htight]

theorem mem_of_mem_stripCommentAndTrim {raw : List Char} {c : Char}
    (h : c ∈ stripCommentAndTrim raw) : c ∈ raw ∧ c ≠ ';' := by
  have hmem := mem_of_mem_trim h
  refine ⟨(List.takeWhile_prefix _).subset hmem, ?_⟩
  simpa using List.mem_takeWhile_imp hmem

/-! ## Commands that parse back -/

/-- The line of the command is one line, is not changed by stripping, and parses to the
command. -/
structure Reparses (num : NumberText F)
    (line : Nat → List Char → Except GcodeParseError (GcodeCommand F)) (c : GcodeCommand F) :
    Prop where
  one_line : '\n' ∉ (c.display num).toList
  stripped : stripCommentAndTrim (c.display num).toList = (c.display num).toList
  ne_nil : (c.display num).toList ≠ []
  parsed : ∀ lineNo, line lineNo (c.display num).toList = .ok c

variable {line : Nat → List Char → Except GcodeParseError (GcodeCommand F)}

/-- A command that renders to tokens with a space in front of each but the first. -/
theorem reparses_of_unwords {c : GcodeCommand F} (head : List Char) (toks : List (List Char))
    (hdisplay : (c.display num).toList = unwords ' ' head toks) (hhead : PlainWord head)
    (htoks : ∀ tok ∈ toks, PlainWord tok)
    (hparsed : ∀ lineNo, line lineNo (unwords ' ' head toks) = .ok c) : Reparses num line c := by
  have hchar {d : Char} (hd : d ∈ unwords ' ' head toks) : d = ' ' ∨ Plain d := by
    rcases mem_unwords hd with rfl | ⟨w, hw, hd⟩
    · exact Or.inl rfl
    · rcases List.mem_cons.mp hw with heq | hw
      · exact Or.inr (hhead.plain d (heq ▸ hd))
      · exact Or.inr ((htoks w hw).plain d hd)
  constructor
  case one_line =>
    rw [hdisplay]
    intro hd
    rcases hchar hd with heq | hplain
    · exact absurd heq (by decide)
    · exact absurd hplain (by decide)
  case stripped =>
    rw [hdisplay]
    apply stripCommentAndTrim_eq_self
    · intro hd
      rcases hchar hd with heq | hplain
      · exact absurd heq (by decide)
      · exact absurd hplain (by decide)
    · exact tight_unwords hhead.isWord fun w hw => (htoks w hw).isWord
  case ne_nil =>
    rw [hdisplay]
    exact unwords_ne_nil hhead.isWord toks
  case parsed =>
    rw [hdisplay]
    exact hparsed

/-- The tokens of a rendered line are found again. -/
theorem words_line {head : List Char} {toks : List (List Char)} (hhead : PlainWord head)
    (htoks : ∀ tok ∈ toks, PlainWord tok) :
    words isWhitespace (unwords ' ' head toks) = head :: toks :=
  words_unwords (by decide) hhead.isWord fun w hw => (htoks w hw).isWord

/-! ### Moves -/

/-- The token of an axis, where it has a value. -/
def axisToken (num : NumberText F) (letter : Char) : Option F → List (List Char)
  | none => []
  | some v => [letter :: (num.display v).toList]

theorem toList_writeAxis (letter : Char) (o : Option F) :
    (writeAxis num letter o).toList = (axisToken num letter o).flatMap (' ' :: ·) := by
  cases o with
  | none => rfl
  | some v => simp [writeAxis, axisToken]

theorem plainWord_axisToken {letter : Char} (hletter : Plain letter) {o : Option F}
    {tok : List Char} (h : tok ∈ axisToken num letter o) : PlainWord tok := by
  cases o with
  | none => cases h
  | some v =>
    rw [List.mem_singleton.mp h]
    exact .cons hletter fun d hd => plain_of_mem_display hd

/-- The tokens of axes, in order. -/
def axisTokens (num : NumberText F) (axes : List (Char × Option F)) : List (List Char) :=
  axes.flatMap fun axis => axisToken num axis.1 axis.2

/-- **Reading the token of an axis** sets the axis; an axis without a value has no token. -/
theorem parseAxisParams_axisTokens {M : Type} {lineNo : Nat} {assign : Char → F → M → Option M}
    {letter : Char} {o : Option F} {axes : List (Char × Option F)} (update : Option F → M)
    (hletter : letter.isAlpha = true ∧ letter.toUpper = letter)
    (hassign : ∀ v, assign letter v (update none) = some (update (some v))) :
    parseAxisParams num lineNo assign (update none) (axisTokens num ((letter, o) :: axes)) =
      parseAxisParams num lineNo assign (update o) (axisTokens num axes) := by
  rw [axisTokens, List.flatMap_cons]
  cases o with
  | none => rfl
  | some v =>
    simp [axisToken, axisTokens, parseAxisParams, splitParam, parseValue, hletter.1, hletter.2,
      num.fromStr_display, hassign, Bind.bind, Except.bind]

def LinearMove.axes (mv : LinearMove F) : List (Char × Option F) :=
  [('X', mv.x), ('Y', mv.y), ('Z', mv.z), ('E', mv.e), ('F', mv.feedrate)]

def ArcMove.axes (mv : ArcMove F) : List (Char × Option F) :=
  [('X', mv.x), ('Y', mv.y), ('Z', mv.z), ('I', mv.i), ('J', mv.j), ('K', mv.k), ('E', mv.e),
    ('F', mv.feedrate)]

def SetPosition.axes (sp : SetPosition F) : List (Char × Option F) :=
  [('X', sp.x), ('Y', sp.y), ('Z', sp.z), ('E', sp.e)]

theorem linearMove_axes (lineNo : Nat) (mv : LinearMove F) :
    linearMove num lineNo mv.rapid (axisTokens num mv.axes) = .ok mv := by
  obtain ⟨rapid, x, y, z, e, feedrate⟩ := mv
  unfold linearMove LinearMove.axes
  refine Eq.trans (parseAxisParams_axisTokens (fun o => LinearMove.mk rapid o none none none none) (by decide)
    fun v => rfl) ?_
  refine Eq.trans (parseAxisParams_axisTokens (fun o => LinearMove.mk rapid x o none none none) (by decide)
    fun v => rfl) ?_
  refine Eq.trans (parseAxisParams_axisTokens (fun o => LinearMove.mk rapid x y o none none) (by decide)
    fun v => rfl) ?_
  refine Eq.trans (parseAxisParams_axisTokens (fun o => LinearMove.mk rapid x y z o none) (by decide)
    fun v => rfl) ?_
  exact parseAxisParams_axisTokens (fun o => LinearMove.mk rapid x y z e o) (by decide) fun v => rfl

theorem arcMove_axes (lineNo : Nat) (mv : ArcMove F) :
    arcMove num lineNo mv.direction (axisTokens num mv.axes) = .ok mv := by
  obtain ⟨direction, x, y, z, i, j, k, e, feedrate⟩ := mv
  unfold arcMove ArcMove.axes
  refine Eq.trans (parseAxisParams_axisTokens (fun o => ArcMove.mk direction o none none none none none none none)
    (by decide) fun v => rfl) ?_
  refine Eq.trans (parseAxisParams_axisTokens (fun o => ArcMove.mk direction x o none none none none none none)
    (by decide) fun v => rfl) ?_
  refine Eq.trans (parseAxisParams_axisTokens (fun o => ArcMove.mk direction x y o none none none none none)
    (by decide) fun v => rfl) ?_
  refine Eq.trans (parseAxisParams_axisTokens (fun o => ArcMove.mk direction x y z o none none none none)
    (by decide) fun v => rfl) ?_
  refine Eq.trans (parseAxisParams_axisTokens (fun o => ArcMove.mk direction x y z i o none none none)
    (by decide) fun v => rfl) ?_
  refine Eq.trans (parseAxisParams_axisTokens (fun o => ArcMove.mk direction x y z i j o none none)
    (by decide) fun v => rfl) ?_
  refine Eq.trans (parseAxisParams_axisTokens (fun o => ArcMove.mk direction x y z i j k o none)
    (by decide) fun v => rfl) ?_
  exact parseAxisParams_axisTokens (fun o => ArcMove.mk direction x y z i j k e o) (by decide)
    fun v => rfl

theorem setPosition_axes (lineNo : Nat) (sp : SetPosition F) :
    setPosition num lineNo (axisTokens num sp.axes) = .ok sp := by
  obtain ⟨x, y, z, e⟩ := sp
  unfold setPosition SetPosition.axes
  refine Eq.trans (parseAxisParams_axisTokens (fun o => SetPosition.mk o none none none) (by decide)
    fun v => rfl) ?_
  refine Eq.trans (parseAxisParams_axisTokens (fun o => SetPosition.mk x o none none) (by decide)
    fun v => rfl) ?_
  refine Eq.trans (parseAxisParams_axisTokens (fun o => SetPosition.mk x y o none) (by decide)
    fun v => rfl) ?_
  exact parseAxisParams_axisTokens (fun o => SetPosition.mk x y z o) (by decide) fun v => rfl

theorem plainWord_axisTokens {axes : List (Char × Option F)} {letters : List Char}
    (haxes : axes.map Prod.fst = letters) (hletters : ∀ letter ∈ letters, Plain letter) :
    ∀ tok ∈ axisTokens num axes, PlainWord tok := by
  intro tok htok
  obtain ⟨axis, haxis, htok⟩ := List.mem_flatMap.mp htok
  exact plainWord_axisToken (hletters axis.1 (haxes ▸ List.mem_map_of_mem haxis)) htok

theorem reparses_linearMove (mv : LinearMove F) :
    Reparses num (parseLine num) (.linearMove mv) := by
  have haxes : ∀ tok ∈ axisTokens num mv.axes, PlainWord tok :=
    @plainWord_axisTokens _ num _ ['X', 'Y', 'Z', 'E', 'F'] rfl (by decide)
  have hdisplay (head : String) (hhead : (if mv.rapid then "G0" else "G1") = head) :
      ((GcodeCommand.linearMove mv).display num).toList =
        unwords ' ' head.toList (axisTokens num mv.axes) := by
    simp [GcodeCommand.display, LinearMove.display, hhead, toList_writeAxis, unwords, axisTokens,
      LinearMove.axes]
  have hmv (lineNo : Nat) :
      linearMove num lineNo mv.rapid (axisTokens num mv.axes) = .ok mv := linearMove_axes lineNo mv
  cases hrapid : mv.rapid with
  | true =>
    have hhead : PlainWord "G0".toList := ⟨by decide, by decide⟩
    refine reparses_of_unwords _ _ (hdisplay "G0" (by rw [hrapid]; rfl)) hhead haxes fun lineNo => ?_
    rw [parseLine, words_line hhead haxes]
    simpa [hrapid, Except.map] using congrArg (Except.map GcodeCommand.linearMove) (hmv lineNo)
  | false =>
    have hhead : PlainWord "G1".toList := ⟨by decide, by decide⟩
    refine reparses_of_unwords _ _ (hdisplay "G1" (by rw [hrapid]; rfl)) hhead haxes fun lineNo => ?_
    rw [parseLine, words_line hhead haxes]
    simpa [hrapid, Except.map] using congrArg (Except.map GcodeCommand.linearMove) (hmv lineNo)

theorem reparses_arcMove (mv : ArcMove F) : Reparses num (parseLine num) (.arcMove mv) := by
  have haxes : ∀ tok ∈ axisTokens num mv.axes, PlainWord tok :=
    @plainWord_axisTokens _ num _ ['X', 'Y', 'Z', 'I', 'J', 'K', 'E', 'F'] rfl (by decide)
  have hmv (lineNo : Nat) :
      arcMove num lineNo mv.direction (axisTokens num mv.axes) = .ok mv := arcMove_axes lineNo mv
  cases hdirection : mv.direction with
  | cw =>
    have hhead : PlainWord "G2".toList := ⟨by decide, by decide⟩
    refine reparses_of_unwords "G2".toList (axisTokens num mv.axes) ?_ hhead haxes fun lineNo => ?_
    · simp [GcodeCommand.display, ArcMove.display, hdirection, toList_writeAxis, unwords, axisTokens,
        ArcMove.axes]
    · rw [parseLine, words_line hhead haxes]
      simpa [hdirection, Except.map] using congrArg (Except.map GcodeCommand.arcMove) (hmv lineNo)
  | ccw =>
    have hhead : PlainWord "G3".toList := ⟨by decide, by decide⟩
    refine reparses_of_unwords "G3".toList (axisTokens num mv.axes) ?_ hhead haxes fun lineNo => ?_
    · simp [GcodeCommand.display, ArcMove.display, hdirection, toList_writeAxis, unwords, axisTokens,
        ArcMove.axes]
    · rw [parseLine, words_line hhead haxes]
      simpa [hdirection, Except.map] using congrArg (Except.map GcodeCommand.arcMove) (hmv lineNo)

theorem reparses_setPosition (sp : SetPosition F) :
    Reparses num (parseLine num) (.setPosition sp) := by
  have haxes : ∀ tok ∈ axisTokens num sp.axes, PlainWord tok :=
    @plainWord_axisTokens _ num _ ['X', 'Y', 'Z', 'E'] rfl (by decide)
  have hhead : PlainWord "G92".toList := ⟨by decide, by decide⟩
  refine reparses_of_unwords "G92".toList (axisTokens num sp.axes) ?_ hhead haxes fun lineNo => ?_
  · simp [GcodeCommand.display, SetPosition.display, toList_writeAxis, unwords, axisTokens,
      SetPosition.axes]
  · rw [parseLine, words_line hhead haxes]
    simpa [Except.map] using congrArg (Except.map GcodeCommand.setPosition) (setPosition_axes lineNo sp)

/-! ### Feed rates -/

theorem reparses_feedrate (fr : Feedrate F) : Reparses num (parseLine num) (.feedrate fr) := by
  have hhead : PlainWord ('F' :: (num.display fr.value).toList) :=
    .cons (by decide) fun c hc => plain_of_mem_display hc
  refine reparses_of_unwords ('F' :: (num.display fr.value).toList) [] ?_ hhead (by simp) fun lineNo => ?_
  · simp [GcodeCommand.display, Feedrate.display, unwords]
  · rw [parseLine, words_line hhead (by simp)]
    simp [parseOther, num.display_ne_nil, parseValue, num.fromStr_display, Bind.bind, Except.bind]

/-! ### M-codes -/

/-- A text that a line can end with. -/
structure PlainRest (t : List Char) : Prop where
  tight : Tight isWhitespace t
  one_line : '\n' ∉ t
  no_comment : ';' ∉ t

/-- A line that starts with an ignored code. -/
structure IgnoredCode (num : NumberText F) (code : UInt16) (cmd : List Char) : Prop where
  word : PlainWord cmd
  display : ("M" ++ code.toNat.repr).toList = cmd
  parsed : ∀ lineNo line params, words isWhitespace line = cmd :: params →
    parseLine num lineNo line = .ok (ignoredMcode code line cmd)

/-- **The rest of the line of an ignored code is kept.** -/
theorem reparses_ignoredMCode {code : UInt16} {cmd : List Char} (hcode : IgnoredCode num code cmd)
    {raw : String} (hraw : PlainRest raw.toList) :
    Reparses num (parseLine num) (.ignoredMCode ⟨code, raw⟩) := by
  have hdisplay : ((GcodeCommand.ignoredMCode ⟨code, raw⟩ : GcodeCommand F).display num).toList =
      cmd ++ if raw.isEmpty then [] else ' ' :: raw.toList := by
    rw [← hcode.display]
    by_cases hempty : raw.isEmpty = true
    · simp [GcodeCommand.display, IgnoredMCode.display, hempty]
    · simp [GcodeCommand.display, IgnoredMCode.display, hempty]
  by_cases hempty : raw.isEmpty = true
  · rw [if_pos hempty, List.append_nil] at hdisplay
    have hcmd : unwords ' ' cmd [] = cmd := by simp [unwords]
    refine reparses_of_unwords cmd [] (by rw [hdisplay, hcmd]) hcode.word (by simp) fun lineNo => ?_
    rw [hcmd, hcode.parsed lineNo cmd [] (words_of_isWord hcode.word.isWord), ignoredMcode,
      List.drop_length]
    have hraw' : raw = "" := String.isEmpty_iff.mp hempty
    rw [hraw']
    rfl
  · rw [if_neg hempty] at hdisplay
    have hne : raw.toList ≠ [] := by
      intro hnil
      exact hempty (String.isEmpty_iff.mpr (String.toList_eq_nil_iff.mp hnil))
    constructor
    case one_line =>
      rw [hdisplay]
      intro hmem
      rcases List.mem_append.mp hmem with hmem | hmem
      · exact absurd (hcode.word.plain _ hmem) (by decide)
      · exact hraw.one_line ((List.mem_cons.mp hmem).resolve_left (by decide))
    case stripped =>
      rw [hdisplay]
      apply stripCommentAndTrim_eq_self
      · intro hmem
        rcases List.mem_append.mp hmem with hmem | hmem
        · exact absurd (hcode.word.plain _ hmem) (by decide)
        · exact hraw.no_comment ((List.mem_cons.mp hmem).resolve_left (by decide))
      · rw [← List.singleton_append, ← List.append_assoc]
        apply tight_append _ _ hne hraw.tight.last
        · simp
        · rw [List.head?_append_of_ne_nil cmd hcode.word.ne_nil]
          exact hcode.word.isWord.tight.head
    case ne_nil =>
      rw [hdisplay]
      simp
    case parsed =>
      intro lineNo
      rw [hdisplay, hcode.parsed lineNo _ _ (words_append_cons hcode.word.isWord (by decide) _),
        ignoredMcode, List.drop_left]
      have htrim : trimStart isWhitespace (' ' :: raw.toList) = raw.toList := by
        rw [trimStart, List.dropWhile_cons_of_pos (by decide)]
        exact trimStart_eq_self hraw.tight.head
      rw [htrim, String.ofList_toList]

/-- The rest that an ignored code keeps can end a line. -/
theorem plainRest_of_line {line cmd : List Char} {params : List (List Char)}
    (hline : PlainRest line) (hwords : words isWhitespace line = cmd :: params) :
    PlainRest (trimStart isWhitespace (line.drop cmd.length)) := by
  have hne : line ≠ [] := by
    rintro rfl
    simp at hwords
  obtain ⟨w, rest, hsplit, hw, -, hfirst⟩ := words_eq_cons hne hline.tight.head
  obtain rfl : w = cmd := (List.cons.inj (hfirst.symm.trans hwords)).1
  rw [hsplit, List.drop_left]
  have hsuffix : trimStart isWhitespace rest <:+ line :=
    (List.dropWhile_suffix _).trans ⟨w, hsplit.symm⟩
  constructor
  case tight =>
    refine ⟨head_trimStart, fun c hc => hline.tight.last c ?_⟩
    obtain ⟨front, hfront⟩ := hsuffix
    rw [← hfront, List.getLast?_append, Option.mem_def.mp hc]
    rfl
  case one_line => exact fun hmem => hline.one_line (hsuffix.subset hmem)
  case no_comment => exact fun hmem => hline.no_comment (hsuffix.subset hmem)

/-- A result under a constructor comes from a result. -/
theorem exists_of_map_eq_ok {A B : Type} {f : A → B} {r : Except GcodeParseError A} {b : B}
    (h : r.map f = .ok b) : ∃ a, r = .ok a ∧ f a = b := by
  cases r with
  | error e => cases h
  | ok a => exact ⟨a, rfl, Except.ok.inj h⟩

theorem feedrate_of_parseOther {lineNo : Nat} {params : List (List Char)} {other : List Char}
    {c : GcodeCommand F} (h : parseOther num lineNo params other = .ok c) :
    ∃ fr, c = .feedrate fr := by
  have hbody {body : List Char} {text : String}
      (hc : (if body = [] then .error ⟨lineNo, .invalidParameter 'F' ""⟩
        else if params ≠ [] then
          .error ⟨lineNo, .unexpectedTrailingTokens text (params.map String.ofList)⟩
        else (parseValue num lineNo 'F' body).bind fun value => .ok (.feedrate ⟨value⟩)) =
          (Except.ok c : Except GcodeParseError (GcodeCommand F))) : ∃ fr, c = .feedrate fr := by
    split at hc
    · cases hc
    · split at hc
      · cases hc
      · cases hvalue : parseValue num lineNo 'F' body with
        | error e =>
          rw [hvalue] at hc
          cases hc
        | ok v =>
          rw [hvalue] at hc
          exact ⟨⟨v⟩, (Except.ok.inj hc).symm⟩
  unfold parseOther at h
  split at h
  · exact hbody h
  · exact hbody h
  · cases h

/-- **What a Marlin line parses to parses back.** -/
theorem reparses_of_parseLine {lineNo : Nat} {line : List Char} {c : GcodeCommand F}
    (hline : PlainRest line) (h : parseLine num lineNo line = .ok c) :
    Reparses num (parseLine num) c := by
  unfold parseLine at h
  cases hwords : words isWhitespace line with
  | nil =>
    rw [hwords] at h
    cases h
  | cons cmd params =>
    rw [hwords] at h
    dsimp only at h
    have hkeep {code : UInt16} {text : String} (hcmd : cmd = text.toList)
        (hcode : IgnoredCode num code text.toList)
        (hc : Except.ok (ignoredMcode code line cmd) = (Except.ok c : Except GcodeParseError _)) :
        Reparses num (parseLine num) c := by
      subst hcmd
      rw [← Except.ok.inj hc]
      apply reparses_ignoredMCode hcode
      rw [String.toList_ofList]
      exact plainRest_of_line hline hwords
    split at h
    · obtain ⟨mv, -, rfl⟩ := exists_of_map_eq_ok h
      exact reparses_linearMove mv
    split at h
    · obtain ⟨mv, -, rfl⟩ := exists_of_map_eq_ok h
      exact reparses_linearMove mv
    split at h
    · obtain ⟨mv, -, rfl⟩ := exists_of_map_eq_ok h
      exact reparses_arcMove mv
    split at h
    · obtain ⟨mv, -, rfl⟩ := exists_of_map_eq_ok h
      exact reparses_arcMove mv
    split at h
    · obtain ⟨sp, -, rfl⟩ := exists_of_map_eq_ok h
      exact reparses_setPosition sp
    split at h
    · next hcmd =>
      refine hkeep hcmd ⟨⟨by decide, by decide⟩, by decide, fun n t ps ht => ?_⟩ h
      rw [parseLine, ht]
      rfl
    split at h
    · next hcmd =>
      refine hkeep hcmd ⟨⟨by decide, by decide⟩, by decide, fun n t ps ht => ?_⟩ h
      rw [parseLine, ht]
      rfl
    split at h
    · next hcmd =>
      refine hkeep hcmd ⟨⟨by decide, by decide⟩, by decide, fun n t ps ht => ?_⟩ h
      rw [parseLine, ht]
      rfl
    split at h
    · next hcmd =>
      refine hkeep hcmd ⟨⟨by decide, by decide⟩, by decide, fun n t ps ht => ?_⟩ h
      rw [parseLine, ht]
      rfl
    -- a token that is no code is a feed rate
    obtain ⟨fr, rfl⟩ := feedrate_of_parseOther h
    exact reparses_feedrate fr

/-! ### Directives -/

/-- A pair that survives in a directive. -/
structure PlainPair (p : String × String) : Prop where
  key_ne_nil : p.1.toList ≠ []
  key_plain : ∀ c ∈ p.1.toList, Plain c
  no_equals : '=' ∉ p.1.toList
  value_plain : ∀ c ∈ p.2.toList, Plain c

/-- The token of a pair. -/
def pairToken (p : String × String) : List Char := p.1.toList ++ '=' :: p.2.toList

theorem PlainPair.plainWord {p : String × String} (h : PlainPair p) : PlainWord (pairToken p) := by
  refine ⟨by simp [pairToken], fun c hc => ?_⟩
  rcases List.mem_append.mp hc with hc | hc
  · exact h.key_plain c hc
  · rcases List.mem_cons.mp hc with rfl | hc
    · decide
    · exact h.value_plain c hc

theorem toList_writePairs (params : List (String × String)) :
    (writePairs params).toList = (params.map pairToken).flatMap (' ' :: ·) := by
  simp [writePairs, String.toList_join, List.flatMap_map, pairToken]

theorem parseKvParams_pairTokens {lineNo : Nat} {params : List (String × String)}
    (h : ∀ p ∈ params, PlainPair p) :
    parseKvParams lineNo (params.map pairToken) = .ok params := by
  induction params with
  | nil => rfl
  | cons p params ih =>
    obtain ⟨hp, hparams⟩ := List.forall_mem_cons.mp h
    rw [List.map_cons, parseKvParams, pairToken, splitOnce_append_cons hp.no_equals]
    simp [hp.key_ne_nil, ih hparams, Bind.bind, Except.bind]

/-- The pairs read from plain tokens are plain. -/
theorem plainPair_of_parseKvParams {lineNo : Nat} {toks : List (List Char)}
    {params : List (String × String)} (htoks : ∀ tok ∈ toks, ∀ c ∈ tok, Plain c)
    (h : parseKvParams lineNo toks = .ok params) : ∀ p ∈ params, PlainPair p := by
  induction toks generalizing params with
  | nil =>
    obtain rfl := Except.ok.inj h
    exact nofun
  | cons tok toks ih =>
    obtain ⟨htok, htoks⟩ := List.forall_mem_cons.mp htoks
    rw [parseKvParams] at h
    cases hsplit : splitOnce '=' tok with
    | none =>
      rw [hsplit] at h
      cases h
    | some kv =>
      obtain ⟨key, value⟩ := kv
      rw [hsplit] at h
      dsimp only at h
      obtain ⟨heq, hequals⟩ := splitOnce_eq_some_iff.mp hsplit
      by_cases hkey : key = []
      · rw [if_pos hkey] at h
        cases h
      · rw [if_neg hkey] at h
        cases hrest : parseKvParams lineNo toks with
        | error e =>
          rw [hrest] at h
          cases h
        | ok rest =>
          rw [hrest] at h
          obtain rfl := Except.ok.inj h
          intro p hp
          rcases List.mem_cons.mp hp with rfl | hp
          · constructor
            case key_ne_nil => rwa [String.toList_ofList]
            case key_plain =>
              rw [String.toList_ofList]
              exact fun c hc => htok c (heq ▸ List.mem_append_left _ hc)
            case no_equals => rwa [String.toList_ofList]
            case value_plain =>
              rw [String.toList_ofList]
              exact fun c hc =>
                htok c (heq ▸ List.mem_append_right _ (List.mem_cons_of_mem _ hc))
          · exact ih htoks hrest p hp

/-- The Klipper dialect parses a line of the other dialect to the same command. -/
theorem parseKlipperLine_of_parseLine {lineNo : Nat} {line : List Char} {c : GcodeCommand F}
    (h : parseLine num lineNo line = .ok c) : parseKlipperLine num lineNo line = .ok c := by
  unfold parseKlipperLine
  cases hwords : words isWhitespace line with
  | nil =>
    rw [parseLine, hwords] at h
    cases h
  | cons head tokens =>
    dsimp only
    -- a directive's keyword is no command of the other dialect
    have hkeyword {text : String} (hunknown : parseLine num lineNo line =
        .error ⟨lineNo, .unknownCommand text⟩) : False := by
      rw [h] at hunknown
      cases hunknown
    split
    · next hhead =>
      refine (@hkeyword "SET_VELOCITY_LIMIT" ?_).elim
      rw [parseLine, hwords, hhead]
      rfl
    · split
      · next hhead =>
        refine (@hkeyword "INPUT_SHAPER" ?_).elim
        rw [parseLine, hwords, hhead]
        rfl
      · exact h

theorem Reparses.klipper {c : GcodeCommand F} (h : Reparses num (parseLine num) c) :
    Reparses num (parseKlipperLine num) c :=
  ⟨h.one_line, h.stripped, h.ne_nil, fun lineNo => parseKlipperLine_of_parseLine (h.parsed lineNo)⟩

/-- A directive that renders to its keyword and its pairs. -/
theorem reparses_directive {c : GcodeCommand F} (name : String) {params : List (String × String)}
    (hparams : ∀ p ∈ params, PlainPair p) (hdisplay : c.display num = name ++ writePairs params)
    (hname : PlainWord name.toList)
    (hparsed : ∀ lineNo line, words isWhitespace line = name.toList :: params.map pairToken →
      parseKlipperLine num lineNo line = .ok c) : Reparses num (parseKlipperLine num) c := by
  have hpairs : ∀ tok ∈ params.map pairToken, PlainWord tok := by
    intro tok htok
    obtain ⟨p, hp, rfl⟩ := List.mem_map.mp htok
    exact (hparams p hp).plainWord
  refine reparses_of_unwords name.toList (params.map pairToken) ?_ hname hpairs fun lineNo => ?_
  · rw [hdisplay, String.toList_append, toList_writePairs]
    rfl
  · exact hparsed lineNo _ (words_line hname hpairs)

/-- **What a Klipper line parses to parses back.** -/
theorem reparses_of_parseKlipperLine {lineNo : Nat} {line : List Char} {c : GcodeCommand F}
    (hline : PlainRest line) (h : parseKlipperLine num lineNo line = .ok c) :
    Reparses num (parseKlipperLine num) c := by
  unfold parseKlipperLine at h
  cases hwords : words isWhitespace line with
  | nil =>
    rw [hwords] at h
    cases h
  | cons head tokens =>
    rw [hwords] at h
    dsimp only at h
    have htokens : ∀ tok ∈ tokens, ∀ c ∈ tok, Plain c := by
      intro tok htok c hc
      have hmem : tok ∈ words isWhitespace line := hwords ▸ List.mem_cons_of_mem head htok
      refine ⟨(isWord_of_mem_words hmem).plain c hc, ?_⟩
      rintro rfl
      exact hline.no_comment (mem_of_mem_words hmem hc)
    split at h
    · obtain ⟨params, hparams, rfl⟩ := exists_of_map_eq_ok h
      have hplain := plainPair_of_parseKvParams htokens hparams
      refine reparses_directive "SET_VELOCITY_LIMIT" hplain rfl ⟨by decide, by decide⟩ ?_
      intro lineNo line hwords
      rw [parseKlipperLine, hwords]
      dsimp only
      rw [if_pos rfl, parseKvParams_pairTokens hplain]
      rfl
    · split at h
      · obtain ⟨params, hparams, rfl⟩ := exists_of_map_eq_ok h
        have hplain := plainPair_of_parseKvParams htokens hparams
        refine reparses_directive "INPUT_SHAPER" hplain rfl ⟨by decide, by decide⟩ ?_
        intro lineNo line hwords
        rw [parseKlipperLine, hwords]
        dsimp only
        rw [if_neg (by decide), if_pos rfl, parseKvParams_pairTokens hplain]
        rfl
      · exact (reparses_of_parseLine hline h).klipper

/-! ## Errors and line numbers -/

/-- A result that depends on the line number only through the number in its error. -/
structure Numbered {A : Type} (r : Nat → Except GcodeParseError A) : Prop where
  line_eq : ∀ n e, r n = .error e → e.line = n
  ok_of_ok : ∀ n m a, r n = .ok a → r m = .ok a

theorem numbered_ok {A : Type} (a : A) : Numbered fun _ => .ok a :=
  ⟨nofun, fun _ _ _ h => h⟩

theorem numbered_error {A : Type} (kind : ParseErrorKind) :
    Numbered fun n => (.error ⟨n, kind⟩ : Except GcodeParseError A) :=
  ⟨fun _ _ h => (Except.error.inj h) ▸ rfl, nofun⟩

theorem Numbered.bind {A B : Type} {r : Nat → Except GcodeParseError A}
    {f : Nat → A → Except GcodeParseError B} (hr : Numbered r) (hf : ∀ a, Numbered (f · a)) :
    Numbered fun n => r n >>= f n := by
  constructor
  · intro n e h
    cases hn : r n with
    | error e' =>
      rw [hn] at h
      obtain rfl := Except.error.inj h
      exact hr.line_eq n _ hn
    | ok a =>
      rw [hn] at h
      exact (hf a).line_eq n e h
  · intro n m b h
    cases hn : r n with
    | error e' =>
      rw [hn] at h
      cases h
    | ok a =>
      rw [hn] at h
      rw [hr.ok_of_ok n m a hn]
      exact (hf a).ok_of_ok n m b h

theorem Numbered.map {A B : Type} {r : Nat → Except GcodeParseError A} (hr : Numbered r)
    (f : A → B) : Numbered fun n => (r n).map f := by
  constructor
  · intro n e h
    cases hn : r n with
    | error e' =>
      rw [hn] at h
      obtain rfl := Except.error.inj h
      exact hr.line_eq n _ hn
    | ok a =>
      rw [hn] at h
      cases h
  · intro n m b h
    obtain ⟨a, ha, rfl⟩ := exists_of_map_eq_ok h
    rw [hr.ok_of_ok n m a ha]
    rfl

theorem Numbered.ite {A : Type} {p : Prop} [Decidable p] {r r' : Nat → Except GcodeParseError A}
    (hr : Numbered r) (hr' : Numbered r') : Numbered fun n => if p then r n else r' n := by
  by_cases hp : p
  · simpa only [if_pos hp] using hr
  · simpa only [if_neg hp] using hr'

theorem numbered_parseValue (letter : Char) (value : List Char) :
    Numbered fun n => parseValue num n letter value := by
  unfold parseValue
  cases num.fromStr value with
  | some v => exact numbered_ok v
  | none => exact numbered_error _

theorem numbered_splitParam (tok : List Char) : Numbered fun n => splitParam n tok := by
  cases tok with
  | nil => exact numbered_error _
  | cons letter value => exact (numbered_ok _).ite (numbered_error _)

theorem numbered_parseAxisParams {M : Type} (assign : Char → F → M → Option M) (mv : M)
    (toks : List (List Char)) : Numbered fun n => parseAxisParams num n assign mv toks := by
  induction toks generalizing mv with
  | nil => exact numbered_ok mv
  | cons tok toks ih =>
    refine (numbered_splitParam tok).bind fun p => ?_
    refine (numbered_parseValue p.1 p.2).bind fun v => ?_
    cases hassign : assign p.1 v mv with
    | some mv' => simpa only [hassign] using ih mv'
    | none => simpa only [hassign] using numbered_error _

theorem numbered_parseOther (params : List (List Char)) (other : List Char) :
    Numbered fun n => parseOther num n params other := by
  have hbody (body : List Char) (text : String) : Numbered fun n =>
      if body = [] then (.error ⟨n, .invalidParameter 'F' ""⟩ : Except _ (GcodeCommand F))
      else if params ≠ [] then
        .error ⟨n, .unexpectedTrailingTokens text (params.map String.ofList)⟩
      else parseValue num n 'F' body >>= fun value => .ok (.feedrate ⟨value⟩) := by
    refine (numbered_error _).ite ((numbered_error _).ite ?_)
    exact (numbered_parseValue 'F' body).bind fun v => numbered_ok _
  unfold parseOther
  split
  · exact hbody _ _
  · exact hbody _ _
  · exact numbered_error _

theorem numbered_parseLine (line : List Char) : Numbered fun n => parseLine num n line := by
  unfold parseLine
  cases words isWhitespace line with
  | nil => exact numbered_error _
  | cons cmd params =>
    refine ((numbered_parseAxisParams _ _ params).map _).ite ?_
    refine ((numbered_parseAxisParams _ _ params).map _).ite ?_
    refine ((numbered_parseAxisParams _ _ params).map _).ite ?_
    refine ((numbered_parseAxisParams _ _ params).map _).ite ?_
    refine ((numbered_parseAxisParams _ _ params).map _).ite ?_
    refine (numbered_ok _).ite ((numbered_ok _).ite ((numbered_ok _).ite ((numbered_ok _).ite ?_)))
    exact numbered_parseOther params cmd

theorem numbered_parseKvParams (toks : List (List Char)) :
    Numbered fun n => parseKvParams n toks := by
  induction toks with
  | nil => exact numbered_ok []
  | cons tok toks ih =>
    simp only [parseKvParams]
    cases splitOnce '=' tok with
    | none => exact numbered_error _
    | some kv => exact (numbered_error _).ite (ih.bind fun rest => numbered_ok _)

theorem numbered_parseKlipperLine (line : List Char) :
    Numbered fun n => parseKlipperLine num n line := by
  unfold parseKlipperLine
  cases words isWhitespace line with
  | nil => exact numbered_error _
  | cons head tokens =>
    refine ((numbered_parseKvParams tokens).map _).ite ?_
    exact ((numbered_parseKvParams tokens).map _).ite (numbered_parseLine line)

/-! ## Sources -/

theorem plainRest_stripped {raw : List Char} (h : '\n' ∉ raw) :
    PlainRest (stripCommentAndTrim raw) where
  tight := tight_trim
  one_line hmem := h (mem_of_mem_stripCommentAndTrim hmem).1
  no_comment hmem := (mem_of_mem_stripCommentAndTrim hmem).2 rfl

theorem not_mem_of_mem_lines {s raw : List Char} (h : raw ∈ s.splitOn '\n') : '\n' ∉ raw := by
  rw [List.splitOn_eq_splitOnP] at h
  intro hmem
  simpa using (mem_splitOnP h '\n' hmem).1

/-- The round of a line that is blank once stripped. -/
theorem parseLines_cons_of_blank {lineNo : Nat} {raw : List Char} {raws : List (List Char)}
    (h : stripCommentAndTrim raw = []) :
    parseLines line lineNo (raw :: raws) = parseLines line (lineNo + 1) raws := by
  rw [parseLines]
  exact if_pos h

/-- The round of a line that is not blank. -/
theorem parseLines_cons {lineNo : Nat} {raw : List Char} {raws : List (List Char)}
    (h : stripCommentAndTrim raw ≠ []) :
    parseLines line lineNo (raw :: raws) = (do
      let c ← line lineNo (stripCommentAndTrim raw)
      let cs ← parseLines line (lineNo + 1) raws
      .ok (c :: cs)) := by
  rw [parseLines]
  exact if_neg h

/-- What a source parses to is what its lines parse to. -/
theorem exists_line_of_mem {lineNo : Nat} {raws : List (List Char)} {cs : List (GcodeCommand F)}
    (h : parseLines line lineNo raws = .ok cs) : ∀ c ∈ cs, ∃ n, ∃ raw ∈ raws,
      line n (stripCommentAndTrim raw) = .ok c := by
  induction raws generalizing lineNo cs with
  | nil =>
    obtain rfl := Except.ok.inj h
    exact nofun
  | cons raw raws ih =>
    have older {cs : List (GcodeCommand F)} (hcs : parseLines line (lineNo + 1) raws = .ok cs) :
        ∀ c ∈ cs, ∃ n, ∃ r ∈ raw :: raws, line n (stripCommentAndTrim r) = .ok c := by
      intro c hc
      obtain ⟨n, r, hr, hline⟩ := ih hcs c hc
      exact ⟨n, r, List.mem_cons_of_mem raw hr, hline⟩
    by_cases hblank : stripCommentAndTrim raw = []
    · rw [parseLines_cons_of_blank hblank] at h
      exact older h
    · rw [parseLines_cons hblank] at h
      cases hc : line lineNo (stripCommentAndTrim raw) with
      | error e =>
        rw [hc] at h
        cases h
      | ok c =>
        rw [hc] at h
        cases hcs : parseLines line (lineNo + 1) raws with
        | error e =>
          simp [hcs, Bind.bind, Except.bind] at h
        | ok rest =>
          simp only [hcs, Bind.bind, Except.bind, Except.ok.injEq] at h
          subst h
          intro d hd
          rcases List.mem_cons.mp hd with rfl | hd
          · exact ⟨lineNo, raw, List.mem_cons_self, hc⟩
          · exact older hcs d hd

/-- The lines of commands that parse back parse to the commands. -/
theorem parseLines_display {cs : List (GcodeCommand F)} (h : ∀ c ∈ cs, Reparses num line c)
    (lineNo : Nat) : parseLines line lineNo (cs.map fun c => (c.display num).toList) = .ok cs := by
  induction cs generalizing lineNo with
  | nil => rfl
  | cons c cs ih =>
    obtain ⟨hc, hcs⟩ := List.forall_mem_cons.mp h
    have hne : stripCommentAndTrim (c.display num).toList ≠ [] := by
      rw [hc.stripped]
      exact hc.ne_nil
    rw [List.map_cons, parseLines_cons hne, hc.stripped, hc.parsed lineNo]
    simp [ih hcs, Bind.bind, Except.bind]

/-- **The rendering of commands that parse back parses to them.** -/
theorem parseLines_displayAll {cs : List (GcodeCommand F)} (h : ∀ c ∈ cs, Reparses num line c) :
    parseLines line 1 ((displayAll num cs).toList.splitOn '\n') = .ok cs := by
  rcases List.eq_nil_or_concat cs with rfl | ⟨front, last, rfl⟩
  · rfl
  · have hlines : (displayAll num (front.concat last)).toList.splitOn '\n' =
        (front.concat last).map fun c => (c.display num).toList := by
      rw [displayAll, String.toList_intercalate, List.map_map]
      apply List.splitOn_intercalate
      · intro l hl
        obtain ⟨c, hc, rfl⟩ := List.mem_map.mp hl
        exact (h c hc).one_line
      · simp
    rw [hlines]
    exact parseLines_display h 1

/-- What parses line by line in one dialect does so in one that accepts its lines. -/
theorem parseLines_mono {line' : Nat → List Char → Except GcodeParseError (GcodeCommand F)}
    (hline : ∀ n t c, line n t = .ok c → line' n t = .ok c) {lineNo : Nat}
    {raws : List (List Char)} {cs : List (GcodeCommand F)}
    (h : parseLines line lineNo raws = .ok cs) : parseLines line' lineNo raws = .ok cs := by
  induction raws generalizing lineNo cs with
  | nil => exact h
  | cons raw raws ih =>
    by_cases hblank : stripCommentAndTrim raw = []
    · rw [parseLines_cons_of_blank hblank] at h ⊢
      exact ih h
    · rw [parseLines_cons hblank] at h ⊢
      cases hc : line lineNo (stripCommentAndTrim raw) with
      | error e =>
        rw [hc] at h
        cases h
      | ok c =>
        rw [hc] at h
        rw [hline lineNo _ c hc]
        cases hcs : parseLines line (lineNo + 1) raws with
        | error e => simp [hcs, Bind.bind, Except.bind] at h
        | ok rest =>
          simp only [hcs, Bind.bind, Except.bind] at h
          simp only [ih hcs, Bind.bind, Except.bind]
          exact h

/-- A line is parsed on its own as a source of one line. -/
theorem parseLines_singleton (lineNo : Nat) (raw : List Char) :
    (∃ cs, parseLines line lineNo [raw] = .ok cs) ↔
      stripCommentAndTrim raw = [] ∨ ∃ c, line lineNo (stripCommentAndTrim raw) = .ok c := by
  by_cases hblank : stripCommentAndTrim raw = []
  · rw [parseLines_cons_of_blank hblank]
    exact ⟨fun _ => Or.inl hblank, fun _ => ⟨[], rfl⟩⟩
  · rw [parseLines_cons hblank, or_iff_right hblank]
    cases hc : line lineNo (stripCommentAndTrim raw) with
    | error e => exact ⟨nofun, nofun⟩
    | ok c => exact ⟨fun _ => ⟨c, rfl⟩, fun _ => ⟨[c], rfl⟩⟩

/-- **A failure is reported at the first line that does not parse.** -/
theorem exists_first_of_error (hline : ∀ t, Numbered fun n => line n t) {lineNo : Nat}
    {raws : List (List Char)} {e : GcodeParseError} (h : parseLines line lineNo raws = .error e) :
    ∃ before raw after, raws = before ++ raw :: after ∧ e.line = lineNo + before.length ∧
      (∀ l ∈ before, ∃ cs, parseLines line 1 [l] = .ok cs) ∧
      ¬ ∃ cs, parseLines line 1 [raw] = .ok cs := by
  induction raws generalizing lineNo with
  | nil => cases h
  | cons raw raws ih =>
    -- the lines after one that parses
    have later (hraw : ∃ cs, parseLines line 1 [raw] = .ok cs)
        (hrest : parseLines line (lineNo + 1) raws = .error e) :
        ∃ before r after, raw :: raws = before ++ r :: after ∧ e.line = lineNo + before.length ∧
          (∀ l ∈ before, ∃ cs, parseLines line 1 [l] = .ok cs) ∧
          ¬ ∃ cs, parseLines line 1 [r] = .ok cs := by
      obtain ⟨before, r, after, rfl, hnumber, hbefore, hr⟩ := ih hrest
      refine ⟨raw :: before, r, after, rfl, ?_, List.forall_mem_cons.mpr ⟨hraw, hbefore⟩, hr⟩
      rw [hnumber, List.length_cons]
      omega
    by_cases hblank : stripCommentAndTrim raw = []
    · rw [parseLines_cons_of_blank hblank] at h
      exact later ((parseLines_singleton 1 raw).mpr (Or.inl hblank)) h
    · rw [parseLines_cons hblank] at h
      cases hc : line lineNo (stripCommentAndTrim raw) with
      | ok c =>
        rw [hc] at h
        refine later ((parseLines_singleton 1 raw).mpr (Or.inr ⟨c, ?_⟩)) ?_
        · exact (hline _).ok_of_ok lineNo 1 c hc
        · cases hcs : parseLines line (lineNo + 1) raws with
          | error e' =>
            simp only [hcs, Bind.bind, Except.bind] at h
            exact h
          | ok cs => simp [hcs, Bind.bind, Except.bind] at h
      | error e' =>
        rw [hc] at h
        obtain rfl := Except.error.inj h
        refine ⟨[], raw, raws, rfl, (hline _).line_eq lineNo _ hc, nofun, ?_⟩
        rw [parseLines_singleton]
        rintro (hnil | ⟨c, hok⟩)
        · exact hblank hnil
        · have hok' := (hline _).ok_of_ok 1 lineNo c hok
          rw [hc] at hok'
          cases hok'

/-- The number is that of the first line of a source that does not parse on its own. -/
def FailsFirst (parse : String → Except GcodeParseError (List (GcodeCommand F))) (src : String)
    (lineNo : Nat) : Prop :=
  ∃ before raw after, src.toList.splitOn '\n' = before ++ raw :: after ∧
    lineNo = before.length + 1 ∧ (∀ l ∈ before, ∃ cs, parse (String.ofList l) = .ok cs) ∧
    ∃ e, parse (String.ofList raw) = .error e

theorem failsFirst_of_error {parse : String → Except GcodeParseError (List (GcodeCommand F))}
    (hparse : ∀ src, parse src = parseLines line 1 (src.toList.splitOn '\n'))
    (hline : ∀ t, Numbered fun n => line n t) {src : String} {e : GcodeParseError}
    (h : parse src = .error e) : FailsFirst parse src e.line := by
  rw [hparse] at h
  obtain ⟨before, raw, after, hsplit, hnumber, hbefore, hraw⟩ := exists_first_of_error hline h
  have hsingle {l : List Char} (hl : l ∈ before ++ raw :: after) :
      parse (String.ofList l) = parseLines line 1 [l] := by
    rw [hparse, String.toList_ofList, List.splitOn_eq_singleton]
    exact not_mem_of_mem_lines (hsplit ▸ hl)
  refine ⟨before, raw, after, hsplit, by omega, fun l hl => ?_, ?_⟩
  · rw [hsingle (List.mem_append_left _ hl)]
    exact hbefore l hl
  · rw [hsingle (List.mem_append_right _ List.mem_cons_self)]
    cases hcs : parseLines line 1 [raw] with
    | error e' => exact ⟨e', rfl⟩
    | ok cs => exact absurd ⟨cs, hcs⟩ hraw

/-- What both dialects promise of a source. -/
structure RoundTrips (num : NumberText F) (src : String) : Prop where
  marlin : ∀ cs, parseMarlin num src = .ok cs → parseMarlin num (displayAll num cs) = .ok cs
  klipper : ∀ cs, parseKlipper num src = .ok cs → parseKlipper num (displayAll num cs) = .ok cs
  klipper_of_marlin : ∀ cs, parseMarlin num src = .ok cs → parseKlipper num src = .ok cs
  marlin_error : ∀ e, parseMarlin num src = .error e → FailsFirst (parseMarlin num) src e.line
  klipper_error : ∀ e, parseKlipper num src = .error e → FailsFirst (parseKlipper num) src e.line

/-- The commands of a source parse back when those of each line do. -/
theorem parseLines_roundTrip {src : String} {cs : List (GcodeCommand F)}
    (hline : ∀ n t c, PlainRest t → line n t = .ok c → Reparses num line c)
    (h : parseLines line 1 (src.toList.splitOn '\n') = .ok cs) :
    parseLines line 1 ((displayAll num cs).toList.splitOn '\n') = .ok cs := by
  apply parseLines_displayAll
  intro c hc
  obtain ⟨n, raw, hraw, hparsed⟩ := exists_line_of_mem h c hc
  exact hline n _ c (plainRest_stripped (not_mem_of_mem_lines hraw)) hparsed

/-- **Printing and parsing are inverse on what the parsers accept**, the Klipper dialect
extends the Marlin dialect, and a failure names the first line that does not parse. -/
theorem gcode_roundTrip (num : NumberText F) (src : String) : RoundTrips num src where
  marlin _ h := parseLines_roundTrip (fun _ _ _ hline h => reparses_of_parseLine hline h) h
  klipper _ h := parseLines_roundTrip (fun _ _ _ hline h => reparses_of_parseKlipperLine hline h) h
  klipper_of_marlin _ h := parseLines_mono (fun _ _ _ h => parseKlipperLine_of_parseLine h) h
  marlin_error _ h := failsFirst_of_error (fun _ => rfl) numbered_parseLine h
  klipper_error _ h := failsFirst_of_error (fun _ => rfl) numbered_parseKlipperLine h

/-- The last of repeated axes counts, and only the first equals sign splits a pair. -/
example : parseKlipper .naturals "G1 X10 e5 X7 ; move\n\nM104  S200 T0\nSET_VELOCITY_LIMIT A=b=c D=" =
    .ok [.linearMove ⟨false, some 7, none, none, some 5, none⟩, .ignoredMCode ⟨104, "S200 T0"⟩,
      .setVelocityLimit ⟨[("A", "b=c"), ("D", "")]⟩] := by decide +kernel

end Reify
