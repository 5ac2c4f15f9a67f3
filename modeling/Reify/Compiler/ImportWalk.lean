import Mathlib.Data.List.Chain
import Reify.Compiler.ModuleDag
import Reify.Foundation.DependsFirst
import Reify.Foundation.Worklist

/-!
# The import walk

What the walk over the imports keeps: the modules compiled so far come after what
they import, the ones in progress import each other in turn, and the `std` modules
come from one source.  A walk that fails has found a cycle, or something that cannot
be loaded.

## Main definitions

* `ProjectEnv.Imports`: the followed imports of the files.
* `Loadable`: everything of a region can be read, and from one source.
* `DagInv`, `Grows`: the invariant, and what a walk adds.
* `DagError.Justified`: what an error says about the project.

## Main results

* `compileModule_outcome`: a walk keeps the invariant, or fails for a reason.
-/

namespace Reify

open Foundation

variable {B U : Type} {env : ProjectEnv B U} {cfg : CfgSet} {R : String → Prop}
  {dag dag' dag'' : ModuleDag B U} {p q : String}

/-- The file of `p` has a followed import of `q`. -/
def ProjectEnv.Imports (env : ProjectEnv B U) (cfg : CfgSet) (p q : String) : Prop :=
  ∃ file source, env.files.get p = some file ∧ file.text = .ok source ∧
    q ∈ source.followedImports cfg

/-- The file of `p`, compiled against the modules that `get` gives for its imports. -/
def FromFile (env : ProjectEnv B U) (cfg : CfgSet) (get : String → Option (CompiledModule U))
    (p : String) (m : CompiledModule U) : Prop :=
  ∃ file parsed preludes, env.files.get p = some file ∧
    ModuleDag.readAndParse p file = .ok parsed ∧
    (parsed.source.followedImports cfg).mapM get = some preludes ∧
    m = env.compileFile p parsed preludes

/-- Every module of the region can be loaded: its file is read and parsed, or it is
embedded, and the `std` modules come from one source. -/
structure Loadable (env : ProjectEnv B U) (R : String → Prop) : Prop where
  readable : ∀ p file, R p → env.files.get p = some file →
    ∃ parsed, ModuleDag.readAndParse p file = .ok parsed
  found : ∀ p, R p → env.files.get p = none → isStdImportPath p = true ∧
    ∃ m ∈ env.stdlib.modules, ModulePath.fromDotted p = .ok m.path
  unmixed : ∀ p q, R p → R q → isStdImportPath p = true → isStdImportPath q = true →
    env.files.get p = none → env.files.get q = none

/-- What an error says: there is a cycle, which the chain goes round, or something
cannot be loaded. -/
def DagError.Justified (env : ProjectEnv B U) (cfg : CfgSet) (R : String → Prop) : DagError → Prop
  | circular chain => (∃ p inner, chain = p :: inner ++ [p]) ∧ chain.IsChain (env.Imports cfg) ∧
      ∀ p ∈ chain, R p
  | expectFailed | outOfFuel | entryParseErrors _ => False
  | overlay _ _ | invalidPath _ _ | notFound _ | unreadable _ _ _ | parseErrors _ _ _ =>
    ¬ Loadable env R

/-! ## Lookups of several keys -/

theorem mapM_get_mono {A : Type} {get get' : String → Option A} {keys : List String} {values : List A}
    (hget : ∀ k v, get k = some v → get' k = some v) (h : keys.mapM get = some values) :
    keys.mapM get' = some values := by
  induction keys generalizing values with
  | nil => exact h
  | cons k keys ih =>
    rw [List.mapM_cons] at h ⊢
    obtain ⟨v, hv, h⟩ := Option.bind_eq_some_iff.mp h
    obtain ⟨vs, hvs, h⟩ := Option.bind_eq_some_iff.mp h
    rw [hget k v hv, ih hvs]
    exact h

theorem exists_mapM_eq_some {A : Type} {get : String → Option A} {keys : List String}
    (h : ∀ k ∈ keys, (get k).isSome = true) : ∃ values, keys.mapM get = some values := by
  induction keys with
  | nil => exact ⟨[], rfl⟩
  | cons k keys ih =>
    obtain ⟨v, hv⟩ := Option.isSome_iff_exists.mp (h k List.mem_cons_self)
    obtain ⟨vs, hvs⟩ := ih fun k hk => h k (List.mem_cons_of_mem _ hk)
    refine ⟨v :: vs, ?_⟩
    rw [List.mapM_cons, hv, hvs]
    rfl

theorem FromFile.mono {get get' : String → Option (CompiledModule U)} {m : CompiledModule U}
    (h : FromFile env cfg get p m) (hget : ∀ k v, get k = some v → get' k = some v) :
    FromFile env cfg get' p m := by
  obtain ⟨file, parsed, preludes, hfile, hparsed, hpreludes, rfl⟩ := h
  exact ⟨file, parsed, preludes, hfile, hparsed, mapM_get_mono hget hpreludes, rfl⟩

/-- Reading and parsing a file gives its text under its path. -/
theorem readAndParse_eq_ok {file : SourceFile B} {parsed : ParsedModule B}
    (h : ModuleDag.readAndParse p file = .ok parsed) :
    file.text = .ok parsed.source ∧ parsed.path.toDotted = p := by
  unfold ModuleDag.readAndParse at h
  split at h
  · cases h
  · next source hsource =>
    split at h
    · cases h
    · next path hpath =>
      split at h
      · obtain rfl := Except.ok.inj h
        exact ⟨hsource, ModulePath.toDotted_of_fromDotted hpath⟩
      · cases h

/-! ## The invariant -/

/-- The module is served from the embedded library. -/
def ModuleDag.ServedEmbedded (dag : ModuleDag B U) (p : String) : Prop :=
  isStdImportPath p = true ∧ dag.stdlibMode = some .embedded

/-- The names of the first `count` embedded modules. -/
def EmbeddedStdlib.names (stdlib : EmbeddedStdlib U) (count : ℕ) : List String :=
  (stdlib.modules.take count).map CompiledModule.name

/-- The invariant of the walk, within a region that is closed under imports. -/
structure DagInv (env : ProjectEnv B U) (cfg : CfgSet) (R : String → Prop) (dag : ModuleDag B U) :
    Prop where
  cfg_eq : dag.cfg = cfg
  mem_topoOrder_iff : ∀ p, p ∈ dag.topoOrder ↔ dag.modules.containsKey p = true
  nodup : dag.topoOrder.Nodup
  name_eq : ∀ p m, dag.modules.get p = some m → m.name = p
  from_file : ∀ p m, dag.modules.get p = some m → ¬ dag.ServedEmbedded p →
    R p ∧ FromFile env cfg dag.modules.get p m
  embedded : ∀ p m, dag.modules.get p = some m → dag.ServedEmbedded p → m ∈ env.stdlib.modules
  imports_first :
    DependsFirst (fun p q => ¬ dag.ServedEmbedded p ∧ env.Imports cfg p q) dag.topoOrder
  mode_none : dag.stdlibMode = none → ∀ p ∈ dag.topoOrder, isStdImportPath p = false
  mode_fileSystem : dag.stdlibMode = some .fileSystem →
    ∃ q, R q ∧ isStdImportPath q = true ∧ env.files.get q ≠ none
  mode_embedded : dag.stdlibMode = some .embedded → ∃ idx m, env.stdlib.modules[idx]? = some m ∧
    R m.name ∧ env.files.get m.name = none ∧
    dag.topoOrder.filter isStdImportPath = env.stdlib.names (idx + 1)
  chain : dag.inProgress.IsChain (env.Imports cfg)
  in_progress_nodup : dag.inProgress.Nodup
  in_progress : ∀ p ∈ dag.inProgress, R p ∧
    (dag.modules.containsKey p = true → dag.ServedEmbedded p)

/-- What a walk adds: modules at the end of the order, and perhaps the mode. -/
structure Grows (dag dag' : ModuleDag B U) : Prop where
  in_progress : dag'.inProgress = dag.inProgress
  topoOrder : dag.topoOrder <+: dag'.topoOrder
  modules : ∀ p m, dag.modules.get p = some m → dag'.modules.get p = some m
  mode : ∀ mode, dag.stdlibMode = some mode → dag'.stdlibMode = some mode

theorem Grows.refl (dag : ModuleDag B U) : Grows dag dag :=
  ⟨rfl, List.prefix_refl _, fun _ _ h => h, fun _ h => h⟩

theorem Grows.trans (h : Grows dag dag') (h' : Grows dag' dag'') : Grows dag dag'' :=
  ⟨h'.in_progress.trans h.in_progress, h.topoOrder.trans h'.topoOrder,
    fun p m hm => h'.modules p m (h.modules p m hm), fun mode hm => h'.mode mode (h.mode mode hm)⟩

theorem Grows.containsKey (h : Grows dag dag') (hp : dag.modules.containsKey p = true) :
    dag'.modules.containsKey p = true := by
  obtain ⟨m, hm⟩ := Option.isSome_iff_exists.mp hp
  exact Option.isSome_iff_exists.mpr ⟨m, h.modules p m hm⟩

/-- The invariant at the start. -/
theorem dagInv_withCfg : DagInv env cfg R (ModuleDag.withCfg cfg) where
  cfg_eq := rfl
  mem_topoOrder_iff p := by simp [ModuleDag.withCfg, HashMap.containsKey]
  nodup := List.nodup_nil
  name_eq p m h := by cases h
  from_file p m h := by cases h
  embedded p m h := by cases h
  imports_first := DependsFirst.nil
  mode_none _ p hp := absurd hp List.not_mem_nil
  mode_fileSystem h := by cases h
  mode_embedded h := by cases h
  chain := List.IsChain.nil
  in_progress_nodup := List.nodup_nil
  in_progress p hp := absurd hp List.not_mem_nil

/-! ## The embedded library -/

/-- The greatest index below `n` that satisfies a condition which holds just below
`k`. -/
theorem find_reverse_range {P : ℕ → Bool} {k n : ℕ} (hk : k ≤ n)
    (hP : ∀ j < n, P j = decide (j < k)) :
    (match (List.range n).reverse.find? P with
      | some j => j + 1
      | none => 0) = k := by
  induction n with
  | zero =>
    obtain rfl : k = 0 := by omega
    rfl
  | succ n ih =>
    rw [List.range_succ, List.reverse_append, List.reverse_singleton, List.singleton_append,
      List.find?_cons, hP n (Nat.lt_succ_self n)]
    by_cases hn : n < k
    · rw [decide_eq_true hn]
      show n + 1 = k
      omega
    · rw [decide_eq_false hn]
      exact ih (by omega) fun j hj => hP j (by omega)

namespace EmbeddedStdlib

variable (stdlib : EmbeddedStdlib U)

theorem isStdImportPath_of_mem_names {count : ℕ} (h : q ∈ stdlib.names count) :
    isStdImportPath q = true := by
  obtain ⟨m, hm, rfl⟩ := List.mem_map.mp h
  exact stdlib.names_std m (List.mem_of_mem_take hm)

theorem names_nodup' (count : ℕ) : (stdlib.names count).Nodup :=
  stdlib.names_nodup.sublist ((List.take_sublist _ _).map _)

theorem mem_names_iff {count j : ℕ} {m : CompiledModule U} (hm : stdlib.modules[j]? = some m) :
    m.name ∈ stdlib.names count ↔ j < count := by
  have hname : (stdlib.modules.map CompiledModule.name)[j]? = some m.name := by
    rw [List.getElem?_map, hm]
    rfl
  constructor
  · intro hmem
    obtain ⟨m', hm', hsame⟩ := List.mem_map.mp hmem
    obtain ⟨i, hi⟩ := List.mem_iff_getElem?.mp hm'
    rw [List.getElem?_take] at hi
    split at hi
    · next hlt =>
      -- the names are distinct
      have hname' : (stdlib.modules.map CompiledModule.name)[i]? = some m.name := by
        rw [List.getElem?_map, hi, ← hsame]
        rfl
      have hsome : i < (stdlib.modules.map CompiledModule.name).length :=
        (List.getElem?_eq_some_iff.mp hname').1
      obtain rfl := (List.getElem?_inj hsome stdlib.names_nodup).mp (hname'.trans hname.symm)
      exact hlt
    · cases hi
  · intro hlt
    refine List.mem_map.mpr ⟨m, List.mem_iff_getElem?.mpr ⟨j, ?_⟩, rfl⟩
    rw [List.getElem?_take, if_pos hlt]
    exact hm

/-- The names of a longer prefix. -/
theorem names_append {count count' : ℕ} (h : count ≤ count') :
    stdlib.names count ++ ((stdlib.modules.take count').drop count).map CompiledModule.name =
      stdlib.names count' := by
  unfold names
  rw [← List.map_append]
  congr 1
  conv_rhs => rw [← List.take_append_drop count (stdlib.modules.take count')]
  rw [List.take_take, min_eq_left h]

end EmbeddedStdlib

/-- How many embedded modules are there, unless the mode is the file system's. -/
theorem DagInv.exists_count (h : DagInv env cfg R dag) (hmode : dag.stdlibMode ≠ some .fileSystem) :
    ∃ count, dag.topoOrder.filter isStdImportPath = env.stdlib.names count := by
  cases hcase : dag.stdlibMode with
  | none =>
    refine ⟨0, List.filter_eq_nil_iff.mpr fun p hp => ?_⟩
    rw [h.mode_none hcase p hp]
    nofun
  | some mode =>
    cases mode with
    | fileSystem => exact absurd hcase hmode
    | embedded =>
      obtain ⟨idx, -, -, -, -, hnames⟩ := h.mode_embedded hcase
      exact ⟨idx + 1, hnames⟩

/-- An embedded module is there when its index is below the count. -/
theorem DagInv.containsKey_embedded_iff (h : DagInv env cfg R dag) {count j : ℕ}
    {m : CompiledModule U} (hnames : dag.topoOrder.filter isStdImportPath = env.stdlib.names count)
    (hm : env.stdlib.modules[j]? = some m) :
    dag.modules.containsKey m.name = true ↔ j < count := by
  rw [← h.mem_topoOrder_iff, ← env.stdlib.mem_names_iff hm, ← hnames, List.mem_filter]
  exact (and_iff_left (env.stdlib.names_std m (List.mem_of_getElem? hm))).symm

/-- The insertion starts where the embedded modules that are there end. -/
theorem DagInv.embeddedStart_eq (h : DagInv env cfg R dag) {count idx : ℕ}
    (hnames : dag.topoOrder.filter isStdImportPath = env.stdlib.names count)
    (hcount : count ≤ idx + 1) (hidx : idx < env.stdlib.modules.length) :
    dag.embeddedStart env.stdlib.modules idx = count := by
  refine find_reverse_range hcount fun j hj => ?_
  have hm : env.stdlib.modules[j]? = some env.stdlib.modules[j] := List.getElem?_eq_getElem _
  rw [hm, Option.any_some, Bool.eq_iff_iff, decide_eq_true_iff]
  exact h.containsKey_embedded_iff hnames hm

/-- Pushing a list of modules. -/
theorem foldl_push (ms : List (CompiledModule U)) (dag : ModuleDag B U) :
    ms.foldl (fun dag m => dag.push m.name m) dag =
      { dag with
        topoOrder := dag.topoOrder ++ ms.map CompiledModule.name
        modules := ms.foldl (fun map m => map.insert m.name m) dag.modules } := by
  induction ms generalizing dag with
  | nil => simp
  | cons m ms ih =>
    rw [List.foldl_cons, ih]
    simp [ModuleDag.push]

/-! ## Modules put behind the others -/

/-- The modules `ms` are put at the end of the order, where none of them was. -/
structure Extends (dag : ModuleDag B U) (ms : List (CompiledModule U)) (dag' : ModuleDag B U) :
    Prop where
  topoOrder_eq : dag'.topoOrder = dag.topoOrder ++ ms.map CompiledModule.name
  nodup : (ms.map CompiledModule.name).Nodup
  fresh : ∀ q ∈ ms.map CompiledModule.name, q ∉ dag.topoOrder
  get_new : ∀ m ∈ ms, dag'.modules.get m.name = some m
  get_old : ∀ q, q ∉ ms.map CompiledModule.name → dag'.modules.get q = dag.modules.get q

section Extends

variable {ms : List (CompiledModule U)} {m : CompiledModule U}

theorem extends_of_insertAll (hnodup : (ms.map CompiledModule.name).Nodup)
    (hfresh : ∀ q ∈ ms.map CompiledModule.name, q ∉ dag.topoOrder)
    (htopo : dag'.topoOrder = dag.topoOrder ++ ms.map CompiledModule.name)
    (hmodules : dag'.modules = ms.foldl (fun map m => map.insert m.name m) dag.modules) :
    Extends dag ms dag' where
  topoOrder_eq := htopo
  nodup := hnodup
  fresh := hfresh
  get_new m hm := by
    rw [hmodules]
    refine HashMap.get_foldl_insert_of_mem hm fun m' hm' hname => ?_
    exact List.inj_on_of_nodup_map hnodup hm' hm hname
  get_old q hq := by
    rw [hmodules]
    refine HashMap.get_foldl_insert_of_ne fun m hm hname => hq ?_
    exact List.mem_map.mpr ⟨m, hm, hname⟩

/-- A module that is found was there, or is one of those put behind. -/
theorem Extends.get_cases (hext : Extends dag ms dag') (hq : dag'.modules.get q = some m) :
    dag.modules.get q = some m ∨ m ∈ ms ∧ q = m.name := by
  by_cases hmem : q ∈ ms.map CompiledModule.name
  · obtain ⟨m', hm', rfl⟩ := List.mem_map.mp hmem
    rw [hext.get_new m' hm'] at hq
    obtain rfl := Option.some.inj hq
    exact Or.inr ⟨hm', rfl⟩
  · rw [hext.get_old q hmem] at hq
    exact Or.inl hq

theorem Extends.containsKey_iff (hext : Extends dag ms dag') :
    dag'.modules.containsKey q = true ↔
      dag.modules.containsKey q = true ∨ q ∈ ms.map CompiledModule.name := by
  by_cases hq : q ∈ ms.map CompiledModule.name
  · obtain ⟨m, hm, rfl⟩ := List.mem_map.mp hq
    refine iff_of_true ?_ (Or.inr hq)
    rw [HashMap.containsKey, hext.get_new m hm]
    rfl
  · rw [or_iff_left hq, HashMap.containsKey, hext.get_old q hq]
    rfl

/-- What was there is found as before. -/
theorem DagInv.get_extends (h : DagInv env cfg R dag) (hext : Extends dag ms dag')
    (hq : dag.modules.get q = some m) : dag'.modules.get q = some m := by
  rw [hext.get_old q fun hmem => hext.fresh q hmem ?_, hq]
  exact (h.mem_topoOrder_iff q).mpr (Option.isSome_iff_exists.mpr ⟨m, hq⟩)

/-- What the mode says about the `std` modules. -/
structure ModeOk (env : ProjectEnv B U) (R : String → Prop) (dag : ModuleDag B U) : Prop where
  mode_none : dag.stdlibMode = none → ∀ p ∈ dag.topoOrder, isStdImportPath p = false
  mode_fileSystem : dag.stdlibMode = some .fileSystem →
    ∃ q, R q ∧ isStdImportPath q = true ∧ env.files.get q ≠ none
  mode_embedded : dag.stdlibMode = some .embedded → ∃ idx m, env.stdlib.modules[idx]? = some m ∧
    R m.name ∧ env.files.get m.name = none ∧
    dag.topoOrder.filter isStdImportPath = env.stdlib.names (idx + 1)

/-- **Modules put behind the others keep the invariant**, if they come from where the
mode says and after what they import. -/
theorem DagInv.extend (h : DagInv env cfg R dag) (hext : Extends dag ms dag') (hcfg : dag'.cfg = cfg)
    (hserved : ∀ q ∈ dag.topoOrder, dag'.ServedEmbedded q ↔ dag.ServedEmbedded q)
    (hfile : ∀ m ∈ ms, ¬ dag'.ServedEmbedded m.name →
      R m.name ∧ FromFile env cfg dag'.modules.get m.name m)
    (hembedded : ∀ m ∈ ms, dag'.ServedEmbedded m.name → m ∈ env.stdlib.modules)
    (himports : DependsFirst (fun p q => ¬ dag'.ServedEmbedded p ∧ env.Imports cfg p q)
      dag'.topoOrder)
    (hmode : ModeOk env R dag') (hchain : dag'.inProgress.IsChain (env.Imports cfg))
    (hprogress_nodup : dag'.inProgress.Nodup)
    (hprogress : ∀ p ∈ dag'.inProgress, R p ∧
      (dag'.modules.containsKey p = true → dag'.ServedEmbedded p)) :
    DagInv env cfg R dag' := by
  have hold (q : String) (m : CompiledModule U) (hq : dag.modules.get q = some m) :
      q ∈ dag.topoOrder := (h.mem_topoOrder_iff q).mpr (Option.isSome_iff_exists.mpr ⟨m, hq⟩)
  constructor
  case cfg_eq => exact hcfg
  case mem_topoOrder_iff =>
    intro q
    rw [hext.topoOrder_eq, hext.containsKey_iff, List.mem_append, h.mem_topoOrder_iff]
  case nodup =>
    rw [hext.topoOrder_eq]
    refine List.nodup_append.mpr ⟨h.nodup, hext.nodup, ?_⟩
    rintro q hq _ hnew rfl
    exact hext.fresh q hnew hq
  case name_eq =>
    intro q m hq
    rcases hext.get_cases hq with hq | ⟨-, rfl⟩
    · exact h.name_eq q m hq
    · rfl
  case from_file =>
    intro q m hq hnot
    rcases hext.get_cases hq with hq | ⟨hm, rfl⟩
    · obtain ⟨hR, hfrom⟩ := h.from_file q m hq (mt (hserved q (hold q m hq)).mpr hnot)
      exact ⟨hR, hfrom.mono fun _ _ => h.get_extends hext⟩
    · exact hfile m hm hnot
  case embedded =>
    intro q m hq hyes
    rcases hext.get_cases hq with hq | ⟨hm, rfl⟩
    · exact h.embedded q m hq ((hserved q (hold q m hq)).mp hyes)
    · exact hembedded m hm hyes
  case imports_first => exact himports
  case mode_none => exact hmode.mode_none
  case mode_fileSystem => exact hmode.mode_fileSystem
  case mode_embedded => exact hmode.mode_embedded
  case chain => exact hchain
  case in_progress_nodup => exact hprogress_nodup
  case in_progress => exact hprogress

end Extends

section InsertEmbedded

variable {idx count : ℕ} {m : CompiledModule U}

theorem ModuleDag.insertEmbedded_eq (dag : ModuleDag B U) (stdlib : List (CompiledModule U))
    (idx : ℕ) :
    (dag.insertEmbedded stdlib idx).cfg = dag.cfg ∧
      (dag.insertEmbedded stdlib idx).inProgress = dag.inProgress ∧
      (dag.insertEmbedded stdlib idx).stdlibMode = (dag.stdlibMode <|> some .embedded) := by
  unfold ModuleDag.insertEmbedded
  rw [foldl_push]
  exact ⟨rfl, rfl, rfl⟩

/-- The insertion puts the rest of the embedded modules up to the index behind. -/
theorem DagInv.extends_insertEmbedded (h : DagInv env cfg R dag)
    (hcount : dag.topoOrder.filter isStdImportPath = env.stdlib.names count)
    (hle : count ≤ idx + 1) (hidx : idx < env.stdlib.modules.length) :
    Extends dag ((env.stdlib.modules.take (idx + 1)).drop count)
      (dag.insertEmbedded env.stdlib.modules idx) := by
  have hnodup := env.stdlib.names_nodup' (idx + 1)
  rw [← env.stdlib.names_append hle] at hnodup
  unfold ModuleDag.insertEmbedded
  rw [h.embeddedStart_eq hcount hle hidx, foldl_push]
  refine extends_of_insertAll (List.nodup_append.mp hnodup).2.1 (fun q hq hold => ?_) rfl rfl
  -- what is there already are the embedded modules below the count
  have hprefix : q ∈ env.stdlib.names (idx + 1) := by
    rw [← env.stdlib.names_append hle]
    exact List.mem_append_right _ hq
  have hold' : q ∈ dag.topoOrder.filter isStdImportPath :=
    List.mem_filter.mpr ⟨hold, env.stdlib.isStdImportPath_of_mem_names hprefix⟩
  rw [hcount] at hold'
  exact (List.nodup_append.mp hnodup).2.2 q hold' q hq rfl

/-- **The insertion keeps the invariant**, where the module at the index is wanted, is
no file, and is not there yet. -/
theorem DagInv.insertEmbedded (h : DagInv env cfg R dag) (hmode : dag.stdlibMode ≠ some .fileSystem)
    (hm : env.stdlib.modules[idx]? = some m) (hR : R m.name) (hfile : env.files.get m.name = none)
    (hnew : ¬ dag.modules.containsKey m.name = true) :
    DagInv env cfg R (dag.insertEmbedded env.stdlib.modules idx) ∧
      Grows dag (dag.insertEmbedded env.stdlib.modules idx) ∧
      (dag.insertEmbedded env.stdlib.modules idx).modules.containsKey m.name = true := by
  obtain ⟨count, hcount⟩ := h.exists_count hmode
  have hidx : idx < env.stdlib.modules.length := (List.getElem?_eq_some_iff.mp hm).1
  have hle : count ≤ idx + 1 := by
    by_contra hlt
    exact hnew ((h.containsKey_embedded_iff hcount hm).mpr (by omega))
  have hext := h.extends_insertEmbedded hcount hle hidx
  have hnames := env.stdlib.names_append hle
  obtain ⟨hcfg, hprogress, hnext⟩ := dag.insertEmbedded_eq env.stdlib.modules idx
  have hembedded (mode : StdlibMode) (hcase : dag.stdlibMode = some mode) : mode = .embedded := by
    cases mode with
    | fileSystem => exact absurd hcase hmode
    | embedded => rfl
  replace hnext : (dag.insertEmbedded env.stdlib.modules idx).stdlibMode = some .embedded := by
    rw [hnext]
    cases hcase : dag.stdlibMode with
    | none => rfl
    | some mode =>
      rw [hembedded mode hcase]
      rfl
  generalize hms : (env.stdlib.modules.take (idx + 1)).drop count = ms at hext hnames
  generalize dag.insertEmbedded env.stdlib.modules idx = dag' at hext hcfg hprogress hnext
  have hstd (q : String) (hq : q ∈ ms.map CompiledModule.name) : isStdImportPath q = true :=
    env.stdlib.isStdImportPath_of_mem_names (hnames ▸ List.mem_append_right _ hq)
  have hserved (q : String) (hq : q ∈ dag.topoOrder) : dag'.ServedEmbedded q ↔ dag.ServedEmbedded q := by
    refine and_congr_right fun hqstd => iff_of_true hnext ?_
    cases hcase : dag.stdlibMode with
    | none =>
      rw [h.mode_none hcase q hq] at hqstd
      cases hqstd
    | some mode => rw [hembedded mode hcase]
  have hnewServed (q : String) (hq : q ∈ ms.map CompiledModule.name) : dag'.ServedEmbedded q :=
    ⟨hstd q hq, hnext⟩
  refine ⟨h.extend hext (hcfg.trans h.cfg_eq) hserved ?_ ?_ ?_ ⟨?_, ?_, ?_⟩ ?_ ?_ ?_,
    ⟨hprogress, hext.topoOrder_eq ▸ List.prefix_append _ _, fun _ _ => h.get_extends hext, ?_⟩, ?_⟩
  · exact fun m hm hnot => absurd (hnewServed _ (List.mem_map_of_mem hm)) hnot
  · intro m hm _
    rw [← hms] at hm
    exact List.mem_of_mem_take (List.mem_of_mem_drop hm)
  · rw [hext.topoOrder_eq]
    refine (h.imports_first.mono ?_).append_of_isolated ?_
    · rintro a ha b ⟨hnot, hread⟩
      exact ⟨mt (hserved a ha).mpr hnot, hread⟩
    · rintro a ha b ⟨hnot, -⟩
      exact hnot (hnewServed a ha)
  · rw [hnext]
    nofun
  · rw [hnext]
    nofun
  · intro _
    refine ⟨idx, m, hm, hR, hfile, ?_⟩
    rw [hext.topoOrder_eq, List.filter_append, hcount, List.filter_eq_self.mpr hstd, hnames]
  · rw [hprogress]
    exact h.chain
  · rw [hprogress]
    exact h.in_progress_nodup
  · intro q hq
    rw [hprogress] at hq
    obtain ⟨hR, hold⟩ := h.in_progress q hq
    refine ⟨hR, fun hc => ⟨?_, hnext⟩⟩
    rcases hext.containsKey_iff.mp hc with hc | hnew
    · exact (hold hc).1
    · exact hstd q hnew
  · intro mode hcase
    rw [hnext, hembedded mode hcase]
  · refine hext.containsKey_iff.mpr (Or.inr (List.mem_map_of_mem ?_))
    rw [← hms]
    refine List.mem_iff_getElem?.mpr ⟨idx - count, ?_⟩
    have hlt : ¬ idx < count := fun hlt => hnew ((h.containsKey_embedded_iff hcount hm).mpr hlt)
    rw [List.getElem?_drop, List.getElem?_take, Nat.add_sub_cancel' (not_lt.mp hlt),
      if_pos (Nat.lt_succ_self idx)]
    exact hm

end InsertEmbedded

/-! ## One module -/

/-- What a walk from `dag` to the module `p` ends with. -/
def Outcome (env : ProjectEnv B U) (cfg : CfgSet) (R : String → Prop) (dag : ModuleDag B U)
    (p : String) : Except DagError (ModuleDag B U) → Prop
  | .ok dag' => DagInv env cfg R dag' ∧ Grows dag dag' ∧ dag'.modules.containsKey p = true
  | .error e => e.Justified env cfg R

/-- A module that resolves to a file. -/
structure ResolvesToFile (env : ProjectEnv B U) (dag : ModuleDag B U) (p : String)
    (file : SourceFile B) (commitFsMode : Bool) : Prop where
  file_eq : env.files.get p = some file
  of_std : isStdImportPath p = true → commitFsMode = true ∧ dag.stdlibMode = none ∨
    commitFsMode = false ∧ dag.stdlibMode = some .fileSystem
  of_not_std : isStdImportPath p = false → commitFsMode = false

/-- What the resolution of the module `p` ends with. -/
def ResolveOutcome (env : ProjectEnv B U) (cfg : CfgSet) (R : String → Prop) (dag : ModuleDag B U)
    (p : String) : Except DagError (ModuleDag.Resolved B U) → Prop
  | .ok (.file file commitFsMode) => ResolvesToFile env dag p file commitFsMode
  | .ok (.embedded dag') => Outcome env cfg R dag p (.ok dag')
  | .error e => e.Justified env cfg R

/-- **What a path resolves to**: a file, the embedded library, or a reason why not. -/
theorem DagInv.resolve (h : DagInv env cfg R dag) (hR : R p)
    (hnew : ¬ dag.modules.containsKey p = true) :
    ResolveOutcome env cfg R dag p (dag.resolve env p) := by
  unfold ModuleDag.resolve
  cases hfile : env.files.get p with
  | some file =>
    dsimp only
    split
    · next hstd =>
      split
      · next hmode =>
        -- a file against the embedded library
        intro hload
        obtain ⟨idx, m, hm, hRm, hnone, -⟩ := h.mode_embedded hmode
        have hmstd := env.stdlib.names_std m (List.mem_of_getElem? hm)
        rw [hload.unmixed m.name p hRm hR hmstd hstd hnone] at hfile
        cases hfile
      · next hmode =>
        refine ⟨hfile, fun _ => ?_, fun hnot => absurd hstd (ne_true_of_eq_false hnot)⟩
        cases hcase : dag.stdlibMode with
        | none => exact Or.inl ⟨rfl, rfl⟩
        | some mode =>
          cases mode with
          | fileSystem => exact Or.inr ⟨rfl, rfl⟩
          | embedded => exact absurd hcase hmode
    · next hstd => exact ⟨hfile, fun hyes => absurd hyes hstd, fun _ => rfl⟩
  | none =>
    dsimp only
    split
    · next hstd =>
      split
      · next hmode =>
        -- the embedded library against a file
        intro hload
        obtain ⟨q, hRq, hqstd, hqfile⟩ := h.mode_fileSystem hmode
        exact hqfile (hload.unmixed p q hR hRq hstd hqstd hfile)
      · next hmode =>
        split
        · next e he =>
          intro hload
          obtain ⟨-, m, -, hm⟩ := hload.found p hR hfile
          rw [he] at hm
          cases hm
        · next target htarget =>
          split
          · next idx hidx =>
            obtain ⟨hlt, hpath, -⟩ := List.findIdx?_eq_some_iff_getElem.mp hidx
            have hm : env.stdlib.modules[idx]? = some env.stdlib.modules[idx] :=
              List.getElem?_eq_getElem hlt
            have hname : env.stdlib.modules[idx].name = p := by
              rw [CompiledModule.name, of_decide_eq_true hpath]
              exact ModulePath.toDotted_of_fromDotted htarget
            have hinsert := h.insertEmbedded hmode hm
            rw [hname] at hinsert
            exact hinsert hR hfile hnew
          · next hidx =>
            intro hload
            obtain ⟨-, m, hm, hpath⟩ := hload.found p hR hfile
            rw [htarget] at hpath
            have hnone := List.findIdx?_eq_none_iff.mp hidx m hm
            rw [← Except.ok.inj hpath] at hnone
            simp at hnone
    · next hstd =>
      intro hload
      exact hstd (hload.found p hR hfile).1

/-- A file that cannot be read or parsed is not loadable. -/
theorem justified_of_readAndParse_error {file : SourceFile B} {e : DagError} (hR : R p)
    (hfile : env.files.get p = some file) (he : ModuleDag.readAndParse p file = .error e) :
    e.Justified env cfg R := by
  have hload : ¬ Loadable env R := by
    intro hload
    obtain ⟨parsed, hparsed⟩ := hload.readable p file hR hfile
    rw [he] at hparsed
    cases hparsed
  unfold ModuleDag.readAndParse at he
  split at he
  · obtain rfl := Except.error.inj he
    exact hload
  · split at he
    · obtain rfl := Except.error.inj he
      exact hload
    · split at he
      · cases he
      · obtain rfl := Except.error.inj he
        exact hload

/-- A module in progress that is asked for closes a cycle. -/
theorem DagInv.justified_circular (h : DagInv env cfg R dag) {chain : List String} (hR : R p)
    (himport : ∀ l ∈ dag.inProgress.getLast?, env.Imports cfg l p)
    (hchain : dag.cycleChain p = some chain) : (DagError.circular chain).Justified env cfg R := by
  unfold ModuleDag.cycleChain at hchain
  split at hchain
  · next hmem =>
    obtain rfl := Option.some.inj hchain
    have hsuffix : dag.inProgress.drop (dag.inProgress.idxOf p) <:+ dag.inProgress :=
      List.drop_suffix _ _
    have hlt := List.idxOf_lt_length_of_mem hmem
    have hcons : dag.inProgress.drop (dag.inProgress.idxOf p) =
        p :: dag.inProgress.drop (dag.inProgress.idxOf p + 1) := by
      rw [List.drop_eq_getElem_cons hlt, List.getElem_idxOf]
    refine ⟨⟨p, _, by rw [hcons]⟩, ?_, ?_⟩
    · refine List.isChain_append.mpr ⟨h.chain.suffix hsuffix, List.isChain_singleton _, ?_⟩
      intro l hl q hq
      obtain rfl : p = q := by simpa using hq
      refine himport l ?_
      rw [Option.mem_def] at hl ⊢
      rw [← List.take_append_drop (dag.inProgress.idxOf p) dag.inProgress,
        List.getLast?_append_of_ne_nil _ (by rw [hcons]; nofun)]
      exact hl
    · intro q hq
      rcases List.mem_append.mp hq with hq | hq
      · exact (h.in_progress q (hsuffix.subset hq)).1
      · obtain rfl := List.mem_singleton.mp hq
        exact hR
  · cases hchain

/-! ## The imports of a module -/

/-- The imports one after the other. -/
theorem foldlM_outcome {step : ModuleDag B U → String → Except DagError (ModuleDag B U)}
    {paths : List String} (h : DagInv env cfg R dag)
    (hstep : ∀ dag' p, p ∈ paths → DagInv env cfg R dag' → dag'.inProgress = dag.inProgress →
      Outcome env cfg R dag' p (step dag' p)) :
    match paths.foldlM step dag with
    | .ok dag' => DagInv env cfg R dag' ∧ Grows dag dag' ∧
        ∀ p ∈ paths, dag'.modules.containsKey p = true
    | .error e => e.Justified env cfg R := by
  induction paths generalizing dag with
  | nil => exact ⟨h, .refl dag, fun p hp => absurd hp List.not_mem_nil⟩
  | cons p paths ih =>
    have hfirst := hstep dag p List.mem_cons_self h rfl
    rw [List.foldlM_cons]
    cases hout : step dag p with
    | error e =>
      rw [hout] at hfirst
      exact hfirst
    | ok dag' =>
      rw [hout] at hfirst
      obtain ⟨hinv, hgrows, hp⟩ := hfirst
      have hrest := ih hinv fun dag'' q hq hinv' heq =>
        hstep dag'' q (List.mem_cons_of_mem _ hq) hinv' (heq.trans hgrows.in_progress)
      show match paths.foldlM step dag' with
        | .ok dag' => DagInv env cfg R dag' ∧ Grows dag dag' ∧
            ∀ q ∈ p :: paths, dag'.modules.containsKey q = true
        | .error e => e.Justified env cfg R
      cases hend : paths.foldlM step dag' with
      | error e =>
        rw [hend] at hrest
        exact hrest
      | ok dag'' =>
        rw [hend] at hrest
        obtain ⟨hinv', hgrows', hpaths⟩ := hrest
        refine ⟨hinv', hgrows.trans hgrows', fun q hq => ?_⟩
        rcases List.mem_cons.mp hq with rfl | hq
        · exact hgrows'.containsKey hp
        · exact hpaths q hq

/-- Starting on a module keeps the invariant. -/
theorem DagInv.startModule (h : DagInv env cfg R dag) (hR : R p) (hnew : p ∉ dag.inProgress)
    (hfresh : ¬ dag.modules.containsKey p = true)
    (himport : ∀ l ∈ dag.inProgress.getLast?, env.Imports cfg l p) :
    DagInv env cfg R { dag with inProgress := dag.inProgress ++ [p] } := by
  refine { h with chain := ?_, in_progress_nodup := ?_, in_progress := ?_ }
  · refine List.isChain_append.mpr ⟨h.chain, List.isChain_singleton _, fun l hl q hq => ?_⟩
    obtain rfl : p = q := by simpa using hq
    exact himport l hl
  · exact List.nodup_append.mpr ⟨h.in_progress_nodup, List.nodup_singleton p,
      fun q hq q' hq' heq => hnew (List.mem_singleton.mp hq' ▸ heq ▸ hq)⟩
  · intro q hq
    rcases List.mem_append.mp hq with hq | hq
    · exact h.in_progress q hq
    · obtain rfl := List.mem_singleton.mp hq
      exact ⟨hR, fun hc => absurd hc hfresh⟩

/-! ## Recording a module -/

/-- The mode once a module that came from a file is recorded. -/
def nextMode (commitFsMode : Bool) (mode : Option StdlibMode) : Option StdlibMode :=
  if commitFsMode then some .fileSystem else mode

theorem eq_none_of_nextMode {commitFsMode : Bool} {mode : Option StdlibMode}
    (h : nextMode commitFsMode mode = none) : mode = none := by
  unfold nextMode at h
  split at h
  · cases h
  · exact h

section Finish

variable {file : SourceFile B} {commitFsMode : Bool}
  (hfile : ResolvesToFile env dag p file commitFsMode)
  (hkeeps : ∀ mode, dag.stdlibMode = some mode → dag'.stdlibMode = some mode)
  (hclash : commitFsMode = true → dag'.stdlibMode ≠ some .embedded)

include hfile in
/-- Only a `std` module commits the mode. -/
theorem ResolvesToFile.std_of_commit (hcommit : commitFsMode = true) : isStdImportPath p = true := by
  by_contra hstd
  rw [hfile.of_not_std (eq_false_of_ne_true hstd)] at hcommit
  cases hcommit

include hfile hkeeps in
/-- After a `std` module from a file the mode is the file system's. -/
theorem ResolvesToFile.nextMode_of_std (hstd : isStdImportPath p = true) :
    nextMode commitFsMode dag'.stdlibMode = some .fileSystem := by
  unfold nextMode
  rcases hfile.of_std hstd with ⟨hcommit, -⟩ | ⟨hcommit, hfs⟩
  · rw [if_pos hcommit]
  · rw [if_neg (ne_true_of_eq_false hcommit), hkeeps _ hfs]

include hfile hkeeps in
theorem ResolvesToFile.nextMode_keeps {mode : StdlibMode} (hmode : dag.stdlibMode = some mode) :
    nextMode commitFsMode dag'.stdlibMode = some mode := by
  unfold nextMode
  split
  · next hcommit =>
    -- the mode is committed where there was none
    rcases hfile.of_std (hfile.std_of_commit hcommit) with ⟨-, hnone⟩ | ⟨hfalse, -⟩
    · rw [hnone] at hmode
      cases hmode
    · rw [hfalse] at hcommit
      cases hcommit
  · exact hkeeps mode hmode

include hclash in
theorem nextMode_eq_embedded_iff :
    nextMode commitFsMode dag'.stdlibMode = some .embedded ↔ dag'.stdlibMode = some .embedded := by
  unfold nextMode
  split
  · next hcommit => exact iff_of_false nofun (hclash hcommit)
  · rfl

include hfile hkeeps hclash in
/-- The mode says where the `std` modules come from, the new one included. -/
theorem modeOk_finish (h' : DagInv env cfg R dag') (hR : R p) {dag'' : ModuleDag B U}
    (htopo : dag''.topoOrder = dag'.topoOrder ++ [p])
    (hmode : dag''.stdlibMode = nextMode commitFsMode dag'.stdlibMode) : ModeOk env R dag'' where
  mode_none hnone q hq := by
    rw [hmode] at hnone
    rw [htopo] at hq
    rcases List.mem_append.mp hq with hq | hq
    · exact h'.mode_none (eq_none_of_nextMode hnone) q hq
    · obtain rfl := List.mem_singleton.mp hq
      refine eq_false_of_ne_true fun hstd => ?_
      rw [hfile.nextMode_of_std hkeeps hstd] at hnone
      cases hnone
  mode_fileSystem hfs := by
    by_cases hcommit : commitFsMode = true
    · exact ⟨p, hR, hfile.std_of_commit hcommit, by rw [hfile.file_eq]; nofun⟩
    · rw [hmode, nextMode, if_neg hcommit] at hfs
      exact h'.mode_fileSystem hfs
  mode_embedded hemb := by
    rw [hmode] at hemb
    have hnot : isStdImportPath p = false := by
      refine eq_false_of_ne_true fun hstd => ?_
      rw [hfile.nextMode_of_std hkeeps hstd] at hemb
      cases hemb
    obtain ⟨idx, m, hm, hRm, hnone, hfilter⟩ :=
      h'.mode_embedded ((nextMode_eq_embedded_iff hclash).mp hemb)
    refine ⟨idx, m, hm, hRm, hnone, ?_⟩
    rw [htopo, List.filter_append, hfilter, List.filter_cons_of_neg (ne_true_of_eq_false hnot),
      List.filter_nil, List.append_nil]

end Finish

/-- A file for a `std` path, and an embedded module meanwhile: the region is mixed. -/
theorem not_loadable_of_mixed {file : SourceFile B} {commitFsMode : Bool}
    (hfile : ResolvesToFile env dag p file commitFsMode) (h' : DagInv env cfg R dag') (hR : R p)
    (hcommit : commitFsMode = true) (hmode : dag'.stdlibMode = some .embedded) : ¬ Loadable env R := by
  intro hload
  obtain ⟨idx, m, hm, hRm, hnone, -⟩ := h'.mode_embedded hmode
  have hmstd := env.stdlib.names_std m (List.mem_of_getElem? hm)
  have hfile' := hfile.file_eq
  rw [hload.unmixed m.name p hRm hR hmstd (hfile.std_of_commit hcommit) hnone] at hfile'
  cases hfile'

/-- A state with the module recorded is what the walk may end with. -/
theorem outcome_recorded {file : SourceFile B} {commitFsMode : Bool} {m : CompiledModule U}
    (h : DagInv env cfg R dag) (hR : R p) (hnew : p ∉ dag.inProgress)
    (hfile : ResolvesToFile env dag p file commitFsMode) (h' : DagInv env cfg R dag')
    (hgrows : Grows { dag with inProgress := dag.inProgress ++ [p] } dag')
    (hclash : commitFsMode = true → dag'.stdlibMode ≠ some .embedded)
    (hname : m.name = p) (hfrom : FromFile env cfg dag'.modules.get p m)
    (himports : ∀ q, env.Imports cfg p q → q ∈ dag'.topoOrder) (hext : Extends dag' [m] dag'')
    (hcfg : dag''.cfg = cfg) (hprogress : dag''.inProgress = dag.inProgress)
    (hmode : dag''.stdlibMode = nextMode commitFsMode dag'.stdlibMode) :
    Outcome env cfg R dag p (.ok dag'') := by
  have htopo : dag''.topoOrder = dag'.topoOrder ++ [p] := by
    rw [hext.topoOrder_eq, List.map_singleton, hname]
  have hserved {q : String} : dag''.ServedEmbedded q ↔ dag'.ServedEmbedded q := by
    unfold ModuleDag.ServedEmbedded
    rw [hmode, nextMode_eq_embedded_iff hclash]
  have hnot : ¬ dag''.ServedEmbedded p := by
    rintro ⟨hstd, hemb⟩
    rw [hmode, hfile.nextMode_of_std hgrows.mode hstd] at hemb
    cases hemb
  refine ⟨h'.extend hext hcfg (fun q _ => hserved) ?_ ?_ ?_
    (modeOk_finish hfile hgrows.mode hclash h' hR htopo hmode) ?_ ?_ ?_,
    ⟨hprogress, ?_, fun q x hq => h'.get_extends hext (hgrows.modules q x hq), fun mode hold => ?_⟩, ?_⟩
  · intro x hx _
    obtain rfl := List.mem_singleton.mp hx
    rw [hname]
    exact ⟨hR, hfrom.mono fun _ _ => h'.get_extends hext⟩
  · intro x hx hyes
    obtain rfl := List.mem_singleton.mp hx
    exact absurd hyes (hname.symm ▸ hnot)
  · rw [htopo]
    refine DependsFirst.concat (h'.imports_first.mono ?_) fun q hread => himports q hread.2
    rintro a - b ⟨hnot, hread⟩
    exact ⟨mt hserved.mpr hnot, hread⟩
  · rw [hprogress]
    exact h.chain
  · rw [hprogress]
    exact h.in_progress_nodup
  · intro q hq
    rw [hprogress] at hq
    have hq' : q ∈ dag'.inProgress := by
      rw [hgrows.in_progress]
      exact List.mem_append_left _ hq
    obtain ⟨hRq, hold⟩ := h'.in_progress q hq'
    refine ⟨hRq, fun hc => hserved.mpr ?_⟩
    rcases hext.containsKey_iff.mp hc with hc | hmem
    · exact hold hc
    · -- the module recorded is no longer in progress
      rw [List.map_singleton, List.mem_singleton, hname] at hmem
      exact absurd hq (hmem ▸ hnew)
  · rw [htopo]
    exact hgrows.topoOrder.trans (List.prefix_append _ _)
  · rw [hmode]
    exact hfile.nextMode_keeps hgrows.mode hold
  · exact hext.containsKey_iff.mpr (Or.inr (hname ▸ List.mem_singleton_self _))

/-- **Recording a module keeps the invariant**, once its imports are compiled. -/
theorem outcome_finish {file : SourceFile B} {parsed : ParsedModule B} {commitFsMode : Bool}
    (h : DagInv env cfg R dag) (hR : R p) (hnew : p ∉ dag.inProgress)
    (hfile : ResolvesToFile env dag p file commitFsMode)
    (hparsed : ModuleDag.readAndParse p file = .ok parsed)
    (h' : DagInv env cfg R dag')
    (hgrows : Grows { dag with inProgress := dag.inProgress ++ [p] } dag')
    (himports : ∀ q ∈ parsed.source.followedImports cfg, dag'.modules.containsKey q = true) :
    Outcome env cfg R dag p (dag'.finish env p file parsed commitFsMode) := by
  obtain ⟨preludes, hpreludes⟩ := exists_mapM_eq_some himports
  have hprogress : dag'.inProgress = dag.inProgress ++ [p] := hgrows.in_progress
  have hp : p ∈ dag'.inProgress := by
    rw [hprogress]
    exact List.mem_append_right _ List.mem_cons_self
  unfold ModuleDag.finish
  rw [h'.cfg_eq, hpreludes]
  dsimp only
  split
  · next hmode =>
    -- an import was served from the embedded library meanwhile
    rw [Bool.and_eq_true, decide_eq_true_iff] at hmode
    exact not_loadable_of_mixed hfile h' hR hmode.1 hmode.2
  · next hmode =>
    rw [Bool.and_eq_true, decide_eq_true_iff, not_and] at hmode
    have hname : (env.compileFile p parsed preludes).name = p := by
      rw [ProjectEnv.name_compileFile]
      exact (readAndParse_eq_ok hparsed).2
    have hfresh : p ∉ dag'.topoOrder := by
      intro hmem
      obtain ⟨hstd, hemb⟩ := (h'.in_progress p hp).2 ((h'.mem_topoOrder_iff p).mp hmem)
      have hnext := (nextMode_eq_embedded_iff hmode).mpr hemb
      rw [hfile.nextMode_of_std hgrows.mode hstd] at hnext
      cases hnext
    refine outcome_recorded h hR hnew hfile h' hgrows hmode hname
      ⟨file, parsed, preludes, hfile.file_eq, hparsed, hpreludes, rfl⟩ ?_
      (extends_of_insertAll (List.nodup_singleton _) ?_ ?_ ?_) rfl ?_ rfl
    · rintro q ⟨file', source, hfile', hsource, hq⟩
      obtain rfl := Option.some.inj (hfile.file_eq.symm.trans hfile')
      obtain rfl := Except.ok.inj ((readAndParse_eq_ok hparsed).1.symm.trans hsource)
      exact (h'.mem_topoOrder_iff q).mpr (himports q hq)
    · intro q hq
      rw [List.map_singleton, List.mem_singleton, hname] at hq
      exact hq ▸ hfresh
    · rw [List.map_singleton, hname]
      rfl
    · rw [List.foldl_cons, List.foldl_nil, hname]
      rfl
    · show dag'.inProgress.erase p = dag.inProgress
      rw [hprogress, List.erase_append_right _ hnew, List.erase_cons_head, List.append_nil]

/-! ## The walk -/

/-- How many files are not in progress. -/
def ProjectEnv.pending (env : ProjectEnv B U) (dag : ModuleDag B U) : ℕ :=
  unpaid env.files.keys (fun _ => 1) (HashSet.ofList dag.inProgress)

theorem pending_startModule {file : SourceFile B} (hfile : env.files.get p = some file)
    (hnew : p ∉ dag.inProgress) :
    env.pending { dag with inProgress := dag.inProgress ++ [p] } < env.pending dag := by
  have hmem : p ∈ env.files.keys := HashMap.mem_keys_iff.mpr ⟨file, hfile⟩
  have hcost := cost_add_unpaid_insert_le (fun _ => 1) (mt HashSet.mem_ofList.mp hnew) (Or.inl hmem)
  have hinsert : HashSet.ofList (dag.inProgress ++ [p]) = (HashSet.ofList dag.inProgress).insert p := by
    unfold HashSet.ofList HashSet.extend
    rw [List.foldl_append]
    rfl
  unfold ProjectEnv.pending
  rw [hinsert]
  omega

/-- **A walk keeps the invariant, or fails for a reason**: it neither runs out of fuel
nor misses an import that it compiled. -/
theorem compileModule_outcome (hclosed : ∀ p q, R p → env.Imports cfg p q → R q) {fuel : ℕ}
    (h : DagInv env cfg R dag) (hR : R p)
    (himport : ∀ l ∈ dag.inProgress.getLast?, env.Imports cfg l p) (hfuel : env.pending dag < fuel) :
    Outcome env cfg R dag p (compileModule env fuel p dag) := by
  induction fuel generalizing p dag with
  | zero => exact absurd hfuel (Nat.not_lt_zero _)
  | succ fuel ih =>
    obtain rfl := h.cfg_eq
    unfold compileModule
    split
    · next hdone => exact ⟨h, .refl dag, hdone⟩
    · next hfresh =>
      split
      · next chain hchain => exact h.justified_circular hR himport hchain
      · next hnone =>
        have hnew : p ∉ dag.inProgress := by
          unfold ModuleDag.cycleChain at hnone
          split at hnone
          · cases hnone
          · next hnew => exact hnew
        have hresolve := h.resolve hR hfresh
        split
        · next e he =>
          rw [he] at hresolve
          exact hresolve
        · next dag' he =>
          rw [he] at hresolve
          exact hresolve
        · next file commitFsMode he =>
          rw [he] at hresolve
          replace hresolve : ResolvesToFile env dag p file commitFsMode := hresolve
          split
          · next e he => exact justified_of_readAndParse_error hR hresolve.file_eq he
          · next parsed hparsed =>
            have hread (q : String) (hq : q ∈ parsed.source.followedImports dag.cfg) :
                env.Imports dag.cfg p q :=
              ⟨file, parsed.source, hresolve.file_eq, (readAndParse_eq_ok hparsed).1, hq⟩
            have hstart := h.startModule hR hnew hfresh himport
            have hpending := pending_startModule hresolve.file_eq hnew
            have hfold := foldlM_outcome hstart fun dag' q hq hinv heq => by
                -- the module asked for is an import of the last in progress
                refine ih hinv (hclosed p q hR (hread q hq)) (fun l hl => ?_) ?_
                · rw [heq] at hl
                  obtain rfl : p = l := by simpa using hl
                  exact hread q hq
                · have hsame : env.pending dag' = env.pending { dag with inProgress := dag.inProgress ++ [p] } := by
                    unfold ProjectEnv.pending
                    rw [heq]
                  omega
            split
            · next e he =>
              rw [he] at hfold
              exact hfold
            · next dag' he =>
              rw [he] at hfold
              obtain ⟨hinv, hgrows, himports⟩ := hfold
              exact outcome_finish h hR hnew hresolve hparsed hinv hgrows himports

end Reify
