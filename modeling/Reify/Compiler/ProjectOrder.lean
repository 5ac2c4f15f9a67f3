import Reify.Compiler.ImportWalk

/-!
# The modules of a project

A project compile returns its modules with dependencies first and the entry last,
unless a module it loads has the name of the entry: the entry then takes that
module's place.  It fails with a circular dependency only where there is one, and
always where there is one and everything else can be loaded.

## Main definitions

* `ProjectEnv.Reachable`, `ProjectEnv.LoadedName`: what a project loads.
* `ProjectOrdered`: a list of modules with dependencies first.
* `ProjectCorrect`: what a project compile promises.

## Main results

* `compileProject_correct`.
-/

namespace Reify

open Foundation

variable {B U : Type} {env : ProjectEnv B U} {cfg : CfgSet} {entryFile : String} {entry : Source B}

/-- The modules that followed imports lead to from the entry. -/
def ProjectEnv.Reachable (env : ProjectEnv B U) (cfg : CfgSet) (entry : Source B) (p : String) : Prop :=
  ∃ root ∈ entry.followedImports cfg, Relation.ReflTransGen (env.Imports cfg) root p

/-- The followed imports of the files that are loaded: where the library is served
embedded, the files of `std` modules are not. -/
def ProjectEnv.ImportsFrom (env : ProjectEnv B U) (cfg : CfgSet) (embedded : Bool) (p q : String) :
    Prop :=
  env.Imports cfg p q ∧ (embedded = true → isStdImportPath p = false)

/-- The modules that the imports of loaded files lead to from the entry. -/
def ProjectEnv.ReachableFrom (env : ProjectEnv B U) (cfg : CfgSet) (embedded : Bool)
    (entry : Source B) (p : String) : Prop :=
  ∃ root ∈ entry.followedImports cfg, Relation.ReflTransGen (env.ImportsFrom cfg embedded) root p

/-- The name of a module that is loaded: a reachable one, or one that the embedded
library has up to a reachable one that is no file. -/
def ProjectEnv.LoadedName (env : ProjectEnv B U) (cfg : CfgSet) (entry : Source B) (p : String) : Prop :=
  env.Reachable cfg entry p ∨ ∃ idx m, env.stdlib.modules[idx]? = some m ∧
    env.Reachable cfg entry m.name ∧ env.files.get m.name = none ∧ p ∈ env.stdlib.names (idx + 1)

/-- The module of a list with the given name. -/
def lookupModule (modules : List (CompiledModule U)) (p : String) : Option (CompiledModule U) :=
  modules.find? fun m => decide (m.name = p)

/-- The modules of a project: every reachable one once, each compiled against modules
before it, the `std` modules from one source, and the entry last. -/
structure ProjectOrdered (env : ProjectEnv B U) (cfg : CfgSet) (entryFile : String) (entry : Source B)
    (embedded : Bool) (deps : List (CompiledModule U)) (last : CompiledModule U) : Prop where
  names_nodup : ((deps ++ [last]).map CompiledModule.name).Nodup
  reachable : ∀ p, env.ReachableFrom cfg embedded entry p → p ∈ deps.map CompiledModule.name
  loaded : ∀ m ∈ deps, env.LoadedName cfg entry m.name
  compiled : ∀ before m after, deps = before ++ m :: after →
    ¬ (embedded = true ∧ isStdImportPath m.name = true) →
      FromFile env cfg (lookupModule before) m.name m
  embedded_prefix : embedded = true →
    ∃ count, deps.filter (fun m => isStdImportPath m.name) = env.stdlib.modules.take count
  last_name : last.name = entryModuleName entryFile
  last_compiled : ∃ preludes, (entry.followedImports cfg).mapM (lookupModule deps) = some preludes ∧
    last = attachModulePathDiag
      (env.compileWithPrelude ⟨.single (entryModuleName entryFile), entry⟩ preludes)
      (⟨.single (entryModuleName entryFile), entry⟩ : ParsedModule B)

/-- A project that was compiled, with the library from files or embedded: nothing
reachable is on a cycle, and the modules are ordered unless the entry has the name of
another one. -/
structure ProjectCompiled (env : ProjectEnv B U) (cfg : CfgSet) (entryFile : String) (entry : Source B)
    (embedded : Bool) (modules : List (CompiledModule U)) : Prop where
  source : embedded = true →
    ∃ p, env.Reachable cfg entry p ∧ isStdImportPath p = true ∧ env.files.get p = none
  acyclic : ∀ p, env.ReachableFrom cfg embedded entry p →
    ¬ Relation.TransGen (env.ImportsFrom cfg embedded) p p
  ordered : ¬ env.LoadedName cfg entry (entryModuleName entryFile) →
    ∃ deps last, modules = deps ++ [last] ∧
      ProjectOrdered env cfg entryFile entry embedded deps last

/-- What the compile of a project promises. -/
structure ProjectCorrect (env : ProjectEnv B U) (entryFile : String) (entry : Source B) (cfg : CfgSet)
    (result : Except DagError (List (CompiledModule U))) : Prop where
  total : result ≠ .error .expectFailed ∧ result ≠ .error .outOfFuel
  compiled : ∀ modules, result = .ok modules →
    ∃ embedded, ProjectCompiled env cfg entryFile entry embedded modules
  chain_real : ∀ chain, result = .error (.circular chain) →
    (∃ p inner, chain = p :: inner ++ [p]) ∧ chain.IsChain (env.Imports cfg) ∧
      ∀ p ∈ chain, env.Reachable cfg entry p
  circular_iff : entry.errors = [] → Loadable env (env.Reachable cfg entry) →
    ((∃ chain, result = .error (.circular chain)) ↔
      ∃ p, env.Reachable cfg entry p ∧ Relation.TransGen (env.Imports cfg) p p)

/-! ## Taking the modules out -/

/-- Distinct keys are looked up one after the other. -/
theorem takeModules_eq_filterMap {keys : List String} {modules : HashMap String (CompiledModule U)}
    (hnodup : keys.Nodup) : takeModules keys modules = keys.filterMap modules.get := by
  induction keys generalizing modules with
  | nil => rfl
  | cons key keys ih =>
    obtain ⟨hkey, hkeys⟩ := List.nodup_cons.mp hnodup
    rw [takeModules, List.filterMap_cons]
    cases hget : modules.get key with
    | none => exact ih hkeys
    | some m =>
      dsimp only
      rw [ih hkeys]
      congr 1
      refine List.filterMap_congr fun k hk => HashMap.get_remove_of_ne _ ?_
      rintro rfl
      exact hkey hk

theorem mapM_congr {A : Type} {get get' : String → Option A} {keys : List String}
    (h : ∀ k ∈ keys, get k = get' k) : keys.mapM get = keys.mapM get' := by
  induction keys with
  | nil => rfl
  | cons k keys ih =>
    rw [List.mapM_cons, List.mapM_cons, h k List.mem_cons_self,
      ih fun k' hk' => h k' (List.mem_cons_of_mem _ hk')]

/-- A lookup in a list of modules that a map holds under their names. -/
theorem lookupModule_eq {modules : List (CompiledModule U)} {get : String → Option (CompiledModule U)}
    (h : ∀ m ∈ modules, get m.name = some m) {p : String} (hp : p ∈ modules.map CompiledModule.name) :
    lookupModule modules p = get p := by
  obtain ⟨m, hm, rfl⟩ := List.mem_map.mp hp
  unfold lookupModule
  cases hfind : modules.find? fun m' => decide (m'.name = m.name) with
  | none => exact absurd (decide_eq_true rfl) (List.find?_eq_none.mp hfind m hm)
  | some m' =>
    have hfound := List.find?_some hfind
    rw [← of_decide_eq_true hfound]
    exact (h m' (List.mem_of_find?_eq_some hfind)).symm

/-- A function that tells the elements of two lists apart is determined by its values. -/
theorem eq_of_map_eq_map {A C : Type} {f : A → C} {as bs : List A}
    (hinj : ∀ a ∈ as, ∀ b ∈ bs, f a = f b → a = b) (h : as.map f = bs.map f) : as = bs := by
  induction as generalizing bs with
  | nil => exact (List.map_eq_nil_iff.mp h.symm).symm
  | cons a as ih =>
    cases bs with
    | nil => cases h
    | cons b bs =>
      obtain ⟨hhead, htail⟩ := List.cons.inj h
      rw [hinj a List.mem_cons_self b List.mem_cons_self hhead,
        ih (fun a ha b hb => hinj a (List.mem_cons_of_mem _ ha) b (List.mem_cons_of_mem _ hb)) htail]

/-! ## The order of the modules -/

section Order

variable {R : String → Prop} {dag : ModuleDag B U}

/-- The modules in their order. -/
def ModuleDag.inOrder (dag : ModuleDag B U) : List (CompiledModule U) :=
  dag.topoOrder.filterMap dag.modules.get

theorem DagInv.get_of_mem_inOrder (h : DagInv env cfg R dag) {m : CompiledModule U}
    (hm : m ∈ dag.inOrder) : dag.modules.get m.name = some m := by
  obtain ⟨p, -, hp⟩ := List.mem_filterMap.mp hm
  rw [h.name_eq p m hp]
  exact hp

theorem DagInv.map_name_inOrder (h : DagInv env cfg R dag) :
    dag.inOrder.map CompiledModule.name = dag.topoOrder := by
  have hkeys (keys : List String) (hsub : ∀ p ∈ keys, p ∈ dag.topoOrder) :
      (keys.filterMap dag.modules.get).map CompiledModule.name = keys := by
    induction keys with
    | nil => rfl
    | cons p keys ih =>
      have hp := (h.mem_topoOrder_iff p).mp (hsub p List.mem_cons_self)
      obtain ⟨m, hm⟩ := Option.isSome_iff_exists.mp hp
      rw [List.filterMap_cons, hm, List.map_cons, h.name_eq p m hm,
        ih fun q hq => hsub q (List.mem_cons_of_mem _ hq)]
  exact hkeys dag.topoOrder fun _ hp => hp

/-- The names in the order are those of loaded modules. -/
theorem DagInv.loadedName (h : DagInv env cfg (env.Reachable cfg entry) dag) {p : String}
    (hp : p ∈ dag.topoOrder) : env.LoadedName cfg entry p := by
  obtain ⟨m, hm⟩ := Option.isSome_iff_exists.mp ((h.mem_topoOrder_iff p).mp hp)
  by_cases hserved : dag.ServedEmbedded p
  · obtain ⟨idx, m', hm', hR, hfile, hnames⟩ := h.mode_embedded hserved.2
    refine Or.inr ⟨idx, m', hm', hR, hfile, ?_⟩
    rw [← hnames]
    exact List.mem_filter.mpr ⟨hp, hserved.1⟩
  · exact Or.inl (h.from_file p m hm hserved).1

/-- A module from a file is compiled against the modules before it. -/
theorem DagInv.fromFile_before (h : DagInv env cfg R dag) {before after : List (CompiledModule U)}
    {m : CompiledModule U} (hsplit : dag.inOrder = before ++ m :: after)
    (hserved : ¬ dag.ServedEmbedded m.name) : FromFile env cfg (lookupModule before) m.name m := by
  have hm : m ∈ dag.inOrder := by
    rw [hsplit]
    exact List.mem_append_right _ List.mem_cons_self
  obtain ⟨-, file, parsed, preludes, hfile, hparsed, hpreludes, heq⟩ :=
    h.from_file m.name m (h.get_of_mem_inOrder hm) hserved
  refine ⟨file, parsed, preludes, hfile, hparsed, ?_, heq⟩
  rw [← hpreludes]
  refine mapM_congr fun q hq => lookupModule_eq (fun x hx => ?_) ?_
  · refine h.get_of_mem_inOrder ?_
    rw [hsplit]
    exact List.mem_append_left _ hx
  · have htopo : dag.topoOrder =
        before.map CompiledModule.name ++ m.name :: after.map CompiledModule.name := by
      rw [← h.map_name_inOrder, hsplit, List.map_append, List.map_cons]
    refine h.imports_first _ _ _ htopo q ⟨hserved, ?_⟩
    exact ⟨file, parsed.source, hfile, (readAndParse_eq_ok hparsed).1, hq⟩

/-- The embedded modules in the order are the first ones of the library. -/
theorem DagInv.filter_inOrder (h : DagInv env cfg R dag) (hmode : dag.stdlibMode = some .embedded) :
    ∃ count, dag.inOrder.filter (fun m => isStdImportPath m.name) = env.stdlib.modules.take count := by
  obtain ⟨idx, -, -, -, -, hnames⟩ := h.mode_embedded hmode
  refine ⟨idx + 1, ?_⟩
  have hmap : (dag.inOrder.filter fun m => isStdImportPath m.name).map CompiledModule.name =
      (env.stdlib.modules.take (idx + 1)).map CompiledModule.name := by
    rw [← EmbeddedStdlib.names, ← hnames, ← h.map_name_inOrder, List.filter_map]
    rfl
  have hmem (m : CompiledModule U) (hm : m ∈ dag.inOrder.filter fun m => isStdImportPath m.name) :
      m ∈ env.stdlib.modules := by
    obtain ⟨hm, hstd⟩ := List.mem_filter.mp hm
    exact h.embedded m.name m (h.get_of_mem_inOrder hm) ⟨hstd, hmode⟩
  -- the names tell the modules of the library apart
  refine eq_of_map_eq_map (fun x hx y hy hname => ?_) hmap
  exact List.inj_on_of_nodup_map env.stdlib.names_nodup (hmem x hx) (List.mem_of_mem_take hy) hname

/-- Whether the library is served embedded. -/
def ModuleDag.isEmbedded (dag : ModuleDag B U) : Bool := decide (dag.stdlibMode = some .embedded)

theorem DagInv.importsFrom_first (h : DagInv env cfg R dag) :
    DependsFirst (env.ImportsFrom cfg dag.isEmbedded) dag.topoOrder := by
  refine h.imports_first.mono ?_
  rintro p - q ⟨hread, hnot⟩
  refine ⟨fun hserved => ?_, hread⟩
  have hstd := hnot (decide_eq_true hserved.2)
  rw [hserved.1] at hstd
  cases hstd

/-- Everything reachable is compiled, once the direct imports are. -/
theorem DagInv.mem_topoOrder_of_reachableFrom (h : DagInv env cfg R dag)
    (hroots : ∀ p ∈ entry.followedImports cfg, p ∈ dag.topoOrder) {p : String}
    (hp : env.ReachableFrom cfg dag.isEmbedded entry p) : p ∈ dag.topoOrder := by
  obtain ⟨root, hroot, hchain⟩ := hp
  exact h.importsFrom_first.mem_of_reflTransGen (hroots root hroot) hchain

/-- **The modules are ordered**, with the entry behind them when its name is new. -/
theorem DagInv.projectOrdered (h : DagInv env cfg (env.Reachable cfg entry) dag)
    (hroots : ∀ p ∈ entry.followedImports cfg, p ∈ dag.topoOrder)
    {preludes : List (CompiledModule U)}
    (hpreludes : (entry.followedImports cfg).mapM dag.modules.get = some preludes)
    (hnew : entryModuleName entryFile ∉ dag.topoOrder) :
    ProjectOrdered env cfg entryFile entry dag.isEmbedded dag.inOrder
      (attachModulePathDiag
        (env.compileWithPrelude ⟨.single (entryModuleName entryFile), entry⟩ preludes)
        (⟨.single (entryModuleName entryFile), entry⟩ : ParsedModule B)) := by
  have hname : (attachModulePathDiag
      (env.compileWithPrelude ⟨.single (entryModuleName entryFile), entry⟩ preludes)
      (⟨.single (entryModuleName entryFile), entry⟩ : ParsedModule B)).name =
        entryModuleName entryFile := by
    rw [name_attachModulePathDiag]
    exact ModulePath.toDotted_single _
  refine ⟨?_, ?_, ?_, ?_, ?_, hname, preludes, ?_, rfl⟩
  · rw [List.map_append, h.map_name_inOrder, List.map_singleton, hname]
    exact List.nodup_append.mpr ⟨h.nodup, List.nodup_singleton _,
      fun p hp p' hp' heq => hnew (List.mem_singleton.mp hp' ▸ heq ▸ hp)⟩
  · intro p hp
    rw [h.map_name_inOrder]
    exact h.mem_topoOrder_of_reachableFrom hroots hp
  · intro m hm
    refine h.loadedName ?_
    rw [← h.map_name_inOrder]
    exact List.mem_map_of_mem hm
  · intro before m after hsplit hnot
    refine h.fromFile_before hsplit fun hserved => hnot ?_
    exact ⟨decide_eq_true hserved.2, hserved.1⟩
  · exact fun hembedded => h.filter_inOrder (of_decide_eq_true hembedded)
  · rw [← hpreludes]
    refine mapM_congr fun p hp => lookupModule_eq (fun x hx => h.get_of_mem_inOrder hx) ?_
    rw [h.map_name_inOrder]
    exact hroots p hp

/-- The list of a project whose entry has a new name. -/
theorem DagInv.takeModules_push (h : DagInv env cfg R dag) {m : CompiledModule U}
    (hnew : m.name ∉ dag.topoOrder) :
    takeModules (dag.push m.name m).topoOrder (dag.push m.name m).modules = dag.inOrder ++ [m] := by
  show takeModules (dag.topoOrder ++ [m.name]) (dag.modules.insert m.name m) = _
  have hnodup : (dag.topoOrder ++ [m.name]).Nodup :=
    List.nodup_append.mpr ⟨h.nodup, List.nodup_singleton _,
      fun p hp p' hp' heq => hnew (List.mem_singleton.mp hp' ▸ heq ▸ hp)⟩
  rw [takeModules_eq_filterMap hnodup, List.filterMap_append]
  congr 1
  · refine List.filterMap_congr fun p hp => HashMap.get_insert_of_ne _ _ ?_
    rintro rfl
    exact hnew hp
  · rw [List.filterMap_cons, HashMap.get_insert_self]
    rfl

end Order

/-! ## The project -/

/-- A chain leads from its first element to its last. -/
theorem transGen_of_isChain {A : Type} {r : A → A → Prop} {a b : A} {inner : List A}
    (h : (a :: inner ++ [b]).IsChain r) : Relation.TransGen r a b := by
  induction inner generalizing a with
  | nil => exact .single (List.isChain_pair.mp h)
  | cons c inner ih =>
    obtain ⟨hstep, hrest⟩ := List.isChain_cons_cons.mp h
    exact .head hstep (ih hrest)

theorem ProjectEnv.Reachable.imports {p q : String} (hp : env.Reachable cfg entry p)
    (hread : env.Imports cfg p q) : env.Reachable cfg entry q := by
  obtain ⟨root, hroot, hchain⟩ := hp
  exact ⟨root, hroot, hchain.tail hread⟩

/-- The walk over the imports of the entry. -/
theorem walk_outcome (env : ProjectEnv B U) (cfg : CfgSet) (entry : Source B) :
    match (entry.followedImports cfg).foldlM
        (fun dag path => compileModule env (env.files.keys.length + 1) path dag)
        (ModuleDag.withCfg cfg) with
    | .ok dag => DagInv env cfg (env.Reachable cfg entry) dag ∧
        ∀ p ∈ entry.followedImports cfg, dag.modules.containsKey p = true
    | .error e => e.Justified env cfg (env.Reachable cfg entry) := by
  have hstep (dag : ModuleDag B U) (p : String) (hp : p ∈ entry.followedImports cfg)
      (hinv : DagInv env cfg (env.Reachable cfg entry) dag)
      (heq : dag.inProgress = (ModuleDag.withCfg cfg : ModuleDag B U).inProgress) :
      Outcome env cfg (env.Reachable cfg entry) dag p
        (compileModule env (env.files.keys.length + 1) p dag) := by
    refine compileModule_outcome (fun _ _ => ProjectEnv.Reachable.imports) hinv ⟨p, hp, .refl⟩ ?_ ?_
    · intro l hl
      rw [heq] at hl
      cases hl
    · have hle : env.pending dag ≤ env.files.keys.length := by
        unfold ProjectEnv.pending unpaid
        simpa using List.length_filter_le _ _
      omega
  have hfold := foldlM_outcome dagInv_withCfg hstep
  revert hfold
  generalize (entry.followedImports cfg).foldlM
    (fun dag path => compileModule env (env.files.keys.length + 1) path dag)
    (ModuleDag.withCfg cfg) = outcome
  intro hfold
  cases outcome with
  | ok dag => exact ⟨hfold.1, hfold.2.2⟩
  | error e => exact hfold

/-- Where everything reachable can be loaded, the imports of reachable files are those
of loaded ones. -/
theorem DagInv.importsFrom_of_loadable {dag : ModuleDag B U}
    (h : DagInv env cfg (env.Reachable cfg entry) dag)
    (hload : Loadable env (env.Reachable cfg entry)) {p q : String} (hp : env.Reachable cfg entry p)
    (hread : env.Imports cfg p q) : env.ImportsFrom cfg dag.isEmbedded p q := by
  refine ⟨hread, fun hembedded => ?_⟩
  obtain ⟨idx, m, hm, hR, hnone, -⟩ := h.mode_embedded (of_decide_eq_true hembedded)
  obtain ⟨file, -, hfile, -⟩ := hread
  by_contra hstd
  have hmstd := env.stdlib.names_std m (List.mem_of_getElem? hm)
  rw [hload.unmixed m.name p hR hp hmstd (eq_true_of_ne_false hstd) hnone] at hfile
  cases hfile

/-- **A compiled project has no cycle** where everything reachable can be loaded. -/
theorem DagInv.not_transGen_of_loadable {dag : ModuleDag B U}
    (h : DagInv env cfg (env.Reachable cfg entry) dag)
    (hroots : ∀ p ∈ entry.followedImports cfg, p ∈ dag.topoOrder)
    (hload : Loadable env (env.Reachable cfg entry)) {p : String} (hp : env.Reachable cfg entry p) :
    ¬ Relation.TransGen (env.Imports cfg) p p := by
  have hchain {q : String} (hq : env.Reachable cfg entry q) : q ∈ dag.topoOrder := by
    obtain ⟨root, hroot, hchain⟩ := hq
    induction hchain with
    | refl => exact hroots root hroot
    | tail hstart hread ih =>
      exact h.importsFrom_first.mem ih (h.importsFrom_of_loadable hload ⟨root, hroot, hstart⟩ hread)
  have hcycle {q : String} (hq : Relation.TransGen (env.Imports cfg) p q) :
      env.Reachable cfg entry q ∧ Relation.TransGen (env.ImportsFrom cfg dag.isEmbedded) p q := by
    induction hq with
    | single hread => exact ⟨hp.imports hread, .single (h.importsFrom_of_loadable hload hp hread)⟩
    | tail _ hread ih =>
      exact ⟨ih.1.imports hread, ih.2.tail (h.importsFrom_of_loadable hload ih.1 hread)⟩
  exact fun hself => h.importsFrom_first.not_transGen h.nodup (hchain hp) (hcycle hself).2

/-- **A project compile returns every module once, with dependencies first**, or an
error; the error is a circular dependency exactly where there is one, when everything
reachable can be loaded. -/
theorem compileProject_correct (env : ProjectEnv B U) (entryFile : String) (entry : Source B)
    (cfg : CfgSet) :
    ProjectCorrect env entryFile entry cfg
      (compileProjectWithEntrySourceCfg env entryFile entry cfg) := by
  have hwalk := walk_outcome env cfg entry
  unfold compileProjectWithEntrySourceCfg
  dsimp only
  split
  · next herrors =>
    split
    · next e he =>
      rw [he] at hwalk
      refine ⟨⟨?_, ?_⟩, nofun, ?_, fun _ hload => ?_⟩
      · rintro ⟨⟩
        exact hwalk
      · rintro ⟨⟩
        exact hwalk
      · rintro chain ⟨⟩
        exact hwalk
      · -- what can be loaded fails with a cycle only
        cases e with
        | circular chain =>
          obtain ⟨⟨p, inner, rfl⟩, hchain, hreach⟩ := hwalk
          refine iff_of_true ⟨_, rfl⟩ ⟨p, hreach p ?_, transGen_of_isChain hchain⟩
          exact List.mem_append_left _ List.mem_cons_self
        | expectFailed | outOfFuel | entryParseErrors => exact hwalk.elim
        | overlay | invalidPath | notFound | unreadable | parseErrors => exact absurd hload hwalk
    · next dag hdag =>
      rw [hdag] at hwalk
      obtain ⟨hinv, hroots⟩ := hwalk
      have hmem (p : String) (hp : p ∈ entry.followedImports cfg) : p ∈ dag.topoOrder :=
        (hinv.mem_topoOrder_iff p).mpr (hroots p hp)
      obtain ⟨preludes, hpreludes⟩ := exists_mapM_eq_some hroots
      rw [hpreludes]
      refine ⟨⟨nofun, nofun⟩, ?_, nofun, fun _ hload => iff_of_false nofun ?_⟩
      · rintro modules ⟨⟩
        refine ⟨dag.isEmbedded, ?_, fun p hp => ?_, fun hnew => ?_⟩
        · intro hembedded
          obtain ⟨idx, m, hm, hR, hnone, -⟩ := hinv.mode_embedded (of_decide_eq_true hembedded)
          exact ⟨m.name, hR, env.stdlib.names_std m (List.mem_of_getElem? hm), hnone⟩
        · exact hinv.importsFrom_first.not_transGen hinv.nodup
            (hinv.mem_topoOrder_of_reachableFrom hmem hp)
        · have hnew' : entryModuleName entryFile ∉ dag.topoOrder := mt hinv.loadedName hnew
          have hordered := hinv.projectOrdered hmem hpreludes hnew'
          refine ⟨_, _, ?_, hordered⟩
          have htake := hinv.takeModules_push (m := attachModulePathDiag (env.compileWithPrelude
            ⟨.single (entryModuleName entryFile), entry⟩ preludes)
              (⟨.single (entryModuleName entryFile), entry⟩ : ParsedModule B))
          rw [hordered.last_name] at htake
          exact htake hnew'
      · rintro ⟨p, hp, hcycle⟩
        exact hinv.not_transGen_of_loadable hmem hload hp hcycle
  · next herrors =>
    exact ⟨⟨nofun, nofun⟩, nofun, nofun, fun hnone => absurd hnone herrors⟩

/-! ## Small projects -/

/-- A source that imports the given modules. -/
def importingSource (imports : List String) : Source Unit :=
  ⟨none, imports.map fun path => ⟨path, []⟩, [], ()⟩

/-- A project without an embedded library, from the imports of each file. -/
def projectOf (files : List (String × List String)) : ProjectEnv Unit Unit where
  files := files.foldl (fun m e => m.insert e.1 ⟨e.1 ++ ".ri", .ok (importingSource e.2)⟩) ∅
  tried p := (p ++ ".ri", p ++ "/mod.ri")
  stdlibRoot := "stdlib"
  stdlib := ⟨[], List.nodup_nil, fun _ hm => absurd hm List.not_mem_nil⟩
  compileUnit _ _ := ([], ())

/-- The names of the compiled modules. -/
def compiledNames (result : Except DagError (List (CompiledModule Unit))) : Option (List String) :=
  result.toOption.map (List.map CompiledModule.name)

/-- A plate on a base comes behind the base, and the entry behind both. -/
example : compiledNames (compileProjectWithEntrySourceCfg
    (projectOf [("plate", ["base"]), ("base", [])]) "main.ri" (importingSource ["plate"]) .default) =
      some ["base", "plate", "main"] := by
  decide +kernel

/-- A library of three modules. -/
def threeModules : EmbeddedStdlib Unit where
  modules := ["units", "shapes", "joints"].map fun name => ⟨⟨["std", name]⟩, [], ()⟩
  names_nodup := by decide
  names_std := by decide

/-- A plate on a shape of the library brings the library in up to that shape, in its order. -/
example : compiledNames (compileProjectWithEntrySourceCfg
    { projectOf [("plate", ["std.shapes", "base"]), ("base", [])] with stdlib := threeModules }
      "main.ri" (importingSource ["plate"]) .default) =
      some ["std.units", "std.shapes", "base", "plate", "main"] := by
  decide +kernel

/-- An import that has the entry's name loses its place to the entry, which comes before
what it imports; and a missing module is reported before a cycle behind it. -/
theorem compileProject_entry_displaced :
    (∃ modules, compileProjectWithEntrySourceCfg (projectOf [("plate", ["main"]), ("main", [])])
        "main.ri" (importingSource ["plate"]) .default = .ok modules ∧
      ¬ ∃ embedded deps last, modules = deps ++ [last] ∧
        ProjectOrdered (projectOf [("plate", ["main"]), ("main", [])]) .default "main.ri"
          (importingSource ["plate"]) embedded deps last) ∧
    ¬ ((∃ chain, compileProjectWithEntrySourceCfg (projectOf [("plate", ["plate"])]) "main.ri"
        (importingSource ["missing", "plate"]) .default = .error (.circular chain)) ↔
      ∃ p, (projectOf [("plate", ["plate"])]).Reachable .default
          (importingSource ["missing", "plate"]) p ∧
        Relation.TransGen ((projectOf [("plate", ["plate"])]).Imports .default) p p) := by
  constructor
  · have hnames : compiledNames (compileProjectWithEntrySourceCfg
        (projectOf [("plate", ["main"]), ("main", [])]) "main.ri" (importingSource ["plate"])
          .default) = some ["main", "plate"] := by
      decide +kernel
    cases hresult : compileProjectWithEntrySourceCfg (projectOf [("plate", ["main"]), ("main", [])])
        "main.ri" (importingSource ["plate"]) .default with
    | error e =>
      rw [hresult] at hnames
      cases hnames
    | ok modules =>
      refine ⟨modules, rfl, ?_⟩
      rintro ⟨embedded, deps, last, rfl, hordered⟩
      rw [hresult] at hnames
      have hlast : (deps.map CompiledModule.name ++ [last.name]).getLast? = some "plate" := by
        rw [← List.map_singleton, ← List.map_append, Option.some.inj hnames]
        rfl
      rw [hordered.last_name, List.getLast?_concat] at hlast
      exact absurd (Option.some.inj hlast) (by decide)
  · have hmissing : compileProjectWithEntrySourceCfg (projectOf [("plate", ["plate"])]) "main.ri"
        (importingSource ["missing", "plate"]) .default = .error (.notFound "missing") := by
      rfl
    intro hiff
    have hself : (projectOf [("plate", ["plate"])]).Imports .default "plate" "plate" :=
      ⟨_, _, rfl, rfl, by decide⟩
    obtain ⟨chain, hchain⟩ := hiff.mpr ⟨"plate", ⟨"plate", by decide, .refl⟩, .single hself⟩
    rw [hmissing] at hchain
    cases hchain

end Reify
