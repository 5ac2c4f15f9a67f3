import Reify.Core.Diagnostic
import Reify.Foundation.HashMap

/-!
# The module graph

A project is compiled by a depth-first walk over its imports.  A module is read,
its imports are compiled, and then it is compiled against them.  A `std` module
comes from the file system or, when it is not there, from the embedded library,
which brings in all the modules before it; the two sources are not mixed.

## Main definitions

* `ModulePath`: module paths and their dotted spelling.
* `CfgSet`, `importCfgSatisfied`: which imports are followed.
* `SourceFile`, `ParsedModule`, `CompiledModule`, `EmbeddedStdlib`: what is compiled.
* `ModuleDag`, `compileModule`: the walk.
* `compileProjectWithEntrySourceCfg`: a project from its entry.
-/

namespace Reify

open Foundation

/-! ## Module paths -/

/-- Why a dotted string is no module path. -/
inductive ModulePathParseError where
  | empty
  | emptySegment (input : String)
deriving DecidableEq, Repr

/-- The path of a module. -/
structure ModulePath where
  segments : List String
deriving DecidableEq, Repr

namespace ModulePath

/-- The path of one segment. -/
def single (name : String) : ModulePath := ⟨[name]⟩

/-- The parts between the dots. -/
def splitDots (dotted : String) : List String :=
  (dotted.toList.splitOn '.').map String.ofList

/-- Parses the dotted spelling. -/
def fromDotted (dotted : String) : Except ModulePathParseError ModulePath :=
  if dotted = "" then .error .empty
  else if (splitDots dotted).any fun segment => segment = "" then .error (.emptySegment dotted)
  else .ok ⟨splitDots dotted⟩

/-- The dotted spelling. -/
def toDotted (path : ModulePath) : String := ".".intercalate path.segments

@[simp] theorem toDotted_single (name : String) : (single name).toDotted = name :=
  String.intercalate_singleton

theorem intercalate_splitDots (dotted : String) : ".".intercalate (splitDots dotted) = dotted := by
  apply String.toList_injective
  rw [String.toList_intercalate, splitDots, List.map_map]
  have hid : String.toList ∘ String.ofList = id := by
    funext cs
    simp
  rw [hid, List.map_id]
  exact List.intercalate_splitOn '.'

/-- A parsed path is spelled as it was written. -/
theorem toDotted_of_fromDotted {dotted : String} {path : ModulePath}
    (h : fromDotted dotted = .ok path) : path.toDotted = dotted := by
  unfold fromDotted at h
  split at h
  · cases h
  · split at h
    · cases h
    · obtain rfl := Except.ok.inj h
      exact intercalate_splitDots dotted

end ModulePath

/-- Whether a path addresses the standard library. -/
def isStdImportPath (path : String) : Bool :=
  decide (path = "std") || "std.".toList.isPrefixOf path.toList

/-! ## Conditional imports -/

/-- The value of a pragma argument; the shapes that no predicate reads are `other`. -/
inductive PragmaValue where
  | ident (name : String)
  | string (text : String)
  | other
deriving DecidableEq, Repr

inductive PragmaArg where
  | bare (value : PragmaValue)
  | keyValue (key : String) (value : PragmaValue)
deriving DecidableEq, Repr

/-- A `#cfg` pragma. -/
structure Pragma where
  args : List PragmaArg
deriving DecidableEq, Repr

/-- The active configuration. -/
structure CfgSet where
  target : Option String
  flags : HashSet String
  kv : HashMap String String

/-- No flag, no target and no value. -/
def CfgSet.default : CfgSet := ⟨none, ∅, ∅⟩

def argSatisfied (arg : PragmaArg) (active : CfgSet) : Bool :=
  match arg with
  | .bare (.ident flag) => decide (flag ∈ active.flags)
  | .keyValue key (.string v) =>
    if key = "target" then decide (active.target = some v) else decide (active.kv.get key = some v)
  | _ => false

def cfgSatisfied (pragma : Pragma) (active : CfgSet) : Bool :=
  pragma.args.all fun arg => argSatisfied arg active

/-- An import with the predicates it depends on. -/
structure ImportDecl where
  path : String
  cfgPredicates : List Pragma
deriving DecidableEq, Repr

def importCfgSatisfied (decl : ImportDecl) (cfg : CfgSet) : Bool :=
  decl.cfgPredicates.all fun pragma => cfgSatisfied pragma cfg

/-! ## Modules -/

variable {B U : Type}

/-- A parsed source text: its declared path, its imports, its parse errors and the
rest. -/
structure Source (B : Type) where
  declaredModulePath : Option ModulePath
  imports : List ImportDecl
  errors : List String
  body : B

/-- A source parsed under a module path. -/
structure ParsedModule (B : Type) where
  path : ModulePath
  source : Source B

/-- The paths of the imports that the configuration follows, in source order. -/
def Source.followedImports (source : Source B) (cfg : CfgSet) : List String :=
  (source.imports.filter fun decl => importCfgSatisfied decl cfg).map ImportDecl.path

/-- A file of the project; reading it may fail. -/
structure SourceFile (B : Type) where
  path : String
  text : Except String (Source B)

/-- A compiled module. -/
structure CompiledModule (U : Type) where
  path : ModulePath
  diagnostics : List Diagnostic
  unit : U

/-- The dotted name of a compiled module. -/
def CompiledModule.name (m : CompiledModule U) : String := m.path.toDotted

/-- The embedded library in its order: distinct `std` modules. -/
structure EmbeddedStdlib (U : Type) where
  modules : List (CompiledModule U)
  names_nodup : (modules.map CompiledModule.name).Nodup
  names_std : ∀ m ∈ modules, isStdImportPath m.name = true

/-- What a project is compiled with: the files that the resolver finds, the places it
tries, the embedded library and the compiler of one module. -/
structure ProjectEnv (B U : Type) where
  files : HashMap String (SourceFile B)
  tried : String → String × String
  stdlibRoot : String
  stdlib : EmbeddedStdlib U
  compileUnit : ParsedModule B → List (CompiledModule U) → List Diagnostic × U

/-- Compiles a parsed module against its imports. -/
def ProjectEnv.compileWithPrelude (env : ProjectEnv B U) (parsed : ParsedModule B)
    (preludes : List (CompiledModule U)) : CompiledModule U where
  path := parsed.path
  diagnostics := (env.compileUnit parsed preludes).1
  unit := (env.compileUnit parsed preludes).2

/-- The source spelling of a declaration of `path`. -/
def moduleDeclaration (path : ModulePath) : String := "module " ++ path.toDotted

/-- Checks a declared module path against the expected one. -/
def checkModulePathDecl (declared : Option ModulePath) (expected : ModulePath) : Option Diagnostic :=
  match declared with
  | none => some (.warning ("W_MODULE_DECL_MISSING: file has no top-of-file `module` declaration; " ++
      "expected `" ++ moduleDeclaration expected ++ "` (spec §7.1)"))
  | some d =>
    if d ≠ expected then
      some (.new .error ("E_MODULE_PATH_MISMATCH: declared module path '" ++ d.toDotted ++
        "' does not match expected path '" ++ expected.toDotted ++
        "' (derived from file location); declare `" ++ moduleDeclaration expected ++
        "` instead (spec §7.1)"))
    else none

/-- Attaches the diagnostic on the declared path. -/
def attachModulePathDiag (compiled : CompiledModule U) (parsed : ParsedModule B) : CompiledModule U :=
  match checkModulePathDecl parsed.source.declaredModulePath parsed.path with
  | some diag => { compiled with diagnostics := compiled.diagnostics ++ [diag] }
  | none => compiled

@[simp] theorem name_attachModulePathDiag (compiled : CompiledModule U) (parsed : ParsedModule B) :
    (attachModulePathDiag compiled parsed).name = compiled.name := by
  unfold attachModulePathDiag
  split <;> rfl

/-- The module compiled from a file; a `std` module declares no path. -/
def ProjectEnv.compileFile (env : ProjectEnv B U) (modulePath : String) (parsed : ParsedModule B)
    (preludes : List (CompiledModule U)) : CompiledModule U :=
  if isStdImportPath modulePath then env.compileWithPrelude parsed preludes
  else attachModulePathDiag (env.compileWithPrelude parsed preludes) parsed

@[simp] theorem ProjectEnv.name_compileFile (env : ProjectEnv B U) (modulePath : String)
    (parsed : ParsedModule B) (preludes : List (CompiledModule U)) :
    (env.compileFile modulePath parsed preludes).name = parsed.path.toDotted := by
  unfold compileFile
  split
  · rfl
  · exact name_attachModulePathDiag _ _

/-! ## Errors -/

/-- Where the `std` modules come from. -/
inductive StdlibMode where
  | fileSystem
  | embedded
deriving DecidableEq, Repr

/-- When a file stood against the embedded library. -/
inductive CommitSite where
  | entry
  | transitive
deriving DecidableEq, Repr

/-- Which source stood against the other. -/
inductive OverlayDirection where
  | fsOverEmbedded (commitSite : CommitSite)
  | embeddedOverFs
deriving DecidableEq, Repr

/-- Why a walk fails. -/
inductive DagError where
  | circular (chain : List String)
  | overlay (modulePath : String) (direction : OverlayDirection)
  | invalidPath (modulePath : String) (e : ModulePathParseError)
  | notFound (modulePath : String)
  | unreadable (modulePath path ioError : String)
  | parseErrors (modulePath path : String) (located : List String)
  | entryParseErrors (messages : List String)
  /-- An `expect` of the source fails. -/
  | expectFailed
  /-- The model's fuel is spent. -/
  | outOfFuel
deriving DecidableEq, Repr

/-! ## The walk -/

/-- A source that was compiled, and where it was read. -/
structure ModuleSource (B : Type) where
  moduleKey : String
  path : String
  source : Source B

/-- The modules compiled so far, in post-order, and those whose imports are being
compiled, in the order of the walk. -/
structure ModuleDag (B U : Type) where
  modules : HashMap String (CompiledModule U)
  topoOrder : List String
  inProgress : List String
  stdlibMode : Option StdlibMode
  cfg : CfgSet
  sources : HashMap String (ModuleSource B)

namespace ModuleDag

/-- Nothing compiled yet. -/
def withCfg (cfg : CfgSet) : ModuleDag B U := ⟨∅, [], [], none, cfg, ∅⟩

/-- The members of the cycle that a module in progress closes. -/
def cycleChain (dag : ModuleDag B U) (modulePath : String) : Option (List String) :=
  if modulePath ∈ dag.inProgress then
    some (dag.inProgress.drop (dag.inProgress.idxOf modulePath) ++ [modulePath])
  else none

/-- Where the embedded modules up to the index are still missing from: behind the last
one that is there. -/
def embeddedStart (dag : ModuleDag B U) (stdlib : List (CompiledModule U)) (idx : ℕ) : ℕ :=
  match (List.range (idx + 1)).reverse.find? fun j =>
    (stdlib[j]?).any fun m => dag.modules.containsKey m.name with
  | some j => j + 1
  | none => 0

/-- Records a module. -/
def push (dag : ModuleDag B U) (key : String) (m : CompiledModule U) : ModuleDag B U :=
  { dag with
    topoOrder := dag.topoOrder ++ [key]
    modules := dag.modules.insert key m }

/-- Inserts the embedded modules up to the index. -/
def insertEmbedded (dag : ModuleDag B U) (stdlib : List (CompiledModule U)) (idx : ℕ) :
    ModuleDag B U :=
  ((stdlib.take (idx + 1)).drop (dag.embeddedStart stdlib idx)).foldl
    (fun dag m => dag.push m.name m)
    { dag with stdlibMode := dag.stdlibMode <|> some .embedded }

/-- What a path resolves to. -/
inductive Resolved (B U : Type) where
  /-- A file; the mode is to be committed once it is compiled. -/
  | file (file : SourceFile B) (commitFsMode : Bool)
  /-- The embedded library, inserted already. -/
  | embedded (dag : ModuleDag B U)

/-- Resolves a path: files first, and the embedded library for `std` paths. -/
def resolve (env : ProjectEnv B U) (dag : ModuleDag B U) (modulePath : String) :
    Except DagError (Resolved B U) :=
  match env.files.get modulePath with
  | some file =>
    if isStdImportPath modulePath then
      if dag.stdlibMode = some .embedded then
        .error (.overlay modulePath (.fsOverEmbedded .entry))
      else .ok (.file file dag.stdlibMode.isNone)
    else .ok (.file file false)
  | none =>
    if isStdImportPath modulePath then
      if dag.stdlibMode = some .fileSystem then .error (.overlay modulePath .embeddedOverFs)
      else
        match ModulePath.fromDotted modulePath with
        | .error e => .error (.invalidPath modulePath e)
        | .ok target =>
          match env.stdlib.modules.findIdx? fun m => m.path = target with
          | some idx => .ok (.embedded (dag.insertEmbedded env.stdlib.modules idx))
          | none => .error (.notFound modulePath)
    else .error (.notFound modulePath)

/-- Reads and parses a file under its module path. -/
def readAndParse (modulePath : String) (file : SourceFile B) : Except DagError (ParsedModule B) :=
  match file.text with
  | .error ioError => .error (.unreadable modulePath file.path ioError)
  | .ok source =>
    match ModulePath.fromDotted modulePath with
    | .error e => .error (.invalidPath modulePath e)
    | .ok path =>
      if source.errors = [] then .ok ⟨path, source⟩
      else .error (.parseErrors modulePath file.path source.errors)

/-- Compiles a module whose imports are compiled, and records it. -/
def finish (env : ProjectEnv B U) (modulePath : String) (file : SourceFile B)
    (parsed : ParsedModule B) (commitFsMode : Bool) (dag : ModuleDag B U) :
    Except DagError (ModuleDag B U) :=
  match (parsed.source.followedImports dag.cfg).mapM dag.modules.get with
  | none => .error .expectFailed
  | some preludes =>
    let compiled := env.compileFile modulePath parsed preludes
    let dag := { dag with inProgress := dag.inProgress.erase modulePath }
    if commitFsMode && decide (dag.stdlibMode = some .embedded) then
      .error (.overlay modulePath (.fsOverEmbedded .transitive))
    else
      let dag := { dag with
        stdlibMode := if commitFsMode then some .fileSystem else dag.stdlibMode }
      let dag := dag.push modulePath compiled
      .ok { dag with sources := dag.sources.insert modulePath ⟨modulePath, file.path, parsed.source⟩ }

end ModuleDag

/-- Compiles a module and what it imports.  The imports go by `foldlM`: the first
that fails ends the walk. -/
def compileModule (env : ProjectEnv B U) : ℕ → String → ModuleDag B U →
    Except DagError (ModuleDag B U)
  | 0, _, _ => .error .outOfFuel
  | fuel + 1, modulePath, dag =>
    if dag.modules.containsKey modulePath then .ok dag
    else
      match dag.cycleChain modulePath with
      | some chain => .error (.circular chain)
      | none =>
        match dag.resolve env modulePath with
        | .error e => .error e
        | .ok (.embedded dag) => .ok dag
        | .ok (.file file commitFsMode) =>
          match ModuleDag.readAndParse modulePath file with
          | .error e => .error e
          | .ok parsed =>
            match (parsed.source.followedImports dag.cfg).foldlM
              (fun dag path => compileModule env fuel path dag)
              { dag with inProgress := dag.inProgress ++ [modulePath] } with
            | .error e => .error e
            | .ok dag => dag.finish env modulePath file parsed commitFsMode

/-! ## A project -/

/-- The stem of a file name: without the extension behind its last dot. -/
def fileStem (fileName : String) : Option String :=
  if fileName = "" || fileName = "." || fileName = ".." then none
  else
    match (fileName.toList.splitOn '.').dropLast with
    | [] | [[]] => some fileName
    | parts => some (String.ofList (['.'].intercalate parts))

/-- The module name of an entry file. -/
def entryModuleName (fileName : String) : String := (fileStem fileName).getD "main"

/-- Takes the modules out of the map in the given order. -/
def takeModules : List String → HashMap String (CompiledModule U) → List (CompiledModule U)
  | [], _ => []
  | key :: keys, modules =>
    match modules.get key with
    | some m => m :: takeModules keys (modules.remove key)
    | none => takeModules keys modules

/-- Compiles a project from the text of its entry. -/
def compileProjectWithEntrySourceCfg (env : ProjectEnv B U) (entryFile : String)
    (entrySource : Source B) (cfg : CfgSet) : Except DagError (List (CompiledModule U)) :=
  let entryName := entryModuleName entryFile
  let parsed : ParsedModule B := ⟨.single entryName, entrySource⟩
  if parsed.source.errors = [] then
    let imports := parsed.source.followedImports cfg
    match imports.foldlM
      (fun dag path => compileModule env (env.files.keys.length + 1) path dag)
      (ModuleDag.withCfg cfg) with
    | .error e => .error e
    | .ok dag =>
      match imports.mapM dag.modules.get with
      | none => .error .expectFailed
      | some preludes =>
        let entry := attachModulePathDiag (env.compileWithPrelude parsed preludes) parsed
        let dag := dag.push entryName entry
        .ok (takeModules dag.topoOrder dag.modules)
  else .error (.entryParseErrors parsed.source.errors)

end Reify
