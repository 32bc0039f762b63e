import Zuban.Vfs.AbsPath

/-!
# Finding the config file of a directory

`find_mypy_config_file_in_dir` opens the names of `CONFIG_PATHS` in `dir` one after another and
stops at the first that supplies options; a `[tool.zuban]` table of `pyproject.toml` is then
applied on top, or makes a config of its own. The files and the parsers are outside this crate,
so the search is modelled for every answer they can give, collected in a `World`. A `?` passes
an error on, an `unwrap` of `None` panics: both end the search with a `Fault`.
-/

namespace Zuban.Config

open Zuban.Path Zuban.Vfs

/-- What opening and reading a path gives. -/
inductive FileState where
  | cannotOpen (err : String)
  | cannotRead (err : String)
  | contents (text : String)
deriving DecidableEq, Repr

/-- `std::fs::read_to_string`: opening and reading in one. -/
def FileState.readToString : FileState → Except String String
  | .cannotOpen err | .cannotRead err => .error err
  | .contents text => .ok text

/-- How a call ends when it returns no value. -/
inductive Fault where
  | error (message : String)
  | panic
deriving DecidableEq, Repr

/-- The files, and the functions of the crate and of toml_edit that the search calls. -/
structure World (Mode Options Diagnostics Document Table : Type) where
  file : List Char → FileState
  parseToml : String → Except String Document
  /-- pyproject_toml.get("tool").and_then(|item| item.get("zuban")) -/
  zubanTable : Document → Option Table
  applyPyprojectTomlMypyPart :
    List Char → List Char → Document → Diagnostics → Option Mode →
      Except String (Option Options × Diagnostics)
  fromPyprojectTomlOnly :
    List Char → List Char → String → Diagnostics → Option Mode →
      Except String (Option Options × Diagnostics)
  fromMypyIni :
    List Char → List Char → String → Diagnostics →
      Except String (Option Options × Diagnostics)
  applyPyprojectTable :
    Options → List Char → List Char → Diagnostics → Table → Bool →
      Except String (Options × Diagnostics)
  mypyDefault : Options
  defaultForMode : Mode → Options
  /-- Mode::Default -/
  defaultMode : Mode
  /-- DiagnosticConfig::default() -/
  defaultDiagnostics : Diagnostics

structure FoundConfig (Options Diagnostics : Type) where
  projectOptions : Options
  diagnosticConfig : Diagnostics
  configPath : Option (List Char)
  mostProbableBase : List Char

def pyprojectTomlName : List Char := "pyproject.toml".toList

def configPaths : List (List Char) :=
  [pyprojectTomlName, "mypy.ini".toList, ".mypy.ini".toList, "setup.cfg".toList]

/-- What one pass of the loop over `CONFIG_PATHS` ends in. -/
inductive Pass (Options Diagnostics Document : Type) where
  /-- The loop goes on, with `pyproject_toml` as it now is. -/
  | next (pyprojectToml : Option Document)
  /-- `break`, with `end_result` set. -/
  | found (config : FoundConfig Options Diagnostics) (pyprojectToml : Option Document)
  | fail (fault : Fault)

section Search

variable {Mode Options Diagnostics Document Table : Type}
  (world : World Mode Options Diagnostics Document Table) (vfs : VfsHandler)

def defaultConfig (mode : Option Mode) (configPath : Option (List Char)) (currentDir : List Char) :
    FoundConfig Options Diagnostics :=
  ⟨world.defaultForMode (mode.getD world.defaultMode), world.defaultDiagnostics, configPath,
    currentDir⟩

def initializeConfig (currentDir configPath : List Char) (content : String) (mode : Option Mode) :
    Except Fault (Option Options × Diagnostics × List Char) :=
  match (if ".toml".toList.isSuffixOf configPath then
      world.fromPyprojectTomlOnly currentDir configPath content world.defaultDiagnostics mode
    else world.fromMypyIni currentDir configPath content world.defaultDiagnostics) with
  | .error err => .error (.error err)
  | .ok (options, diagnosticConfig) => .ok (options, diagnosticConfig, configPath)

/-- The body of the loop over `CONFIG_PATHS`, for one name. The `unwrap` of `pyproject_toml`
reads back the document stored the line before, so it is that document here. -/
def checkConfigPath (dir : List Char) (mode : Option Mode) (pyprojectToml : Option Document)
    (configName : List Char) : Pass Options Diagnostics Document :=
  let path := vfs.join dir configName
  match world.file path with
  | .cannotOpen _ => .next pyprojectToml
  | .cannotRead err => .fail (.error ("Issue while reading " ++ String.mk path ++ ": " ++ err))
  | .contents content =>
      let configPath := vfs.absolutePath dir configName
      if configName = pyprojectTomlName then
        match world.parseToml content with
        | .error err => .fail (.error err)
        | .ok document =>
            match world.applyPyprojectTomlMypyPart dir configPath document
                world.defaultDiagnostics mode with
            | .error err => .fail (.error err)
            | .ok (some projectOptions, diagnosticConfig) =>
                .found ⟨projectOptions, diagnosticConfig, some configPath, dir⟩ (some document)
            | .ok (none, _) => .next (some document)
      else
        match initializeConfig world dir configPath content mode with
        | .error fault => .fail fault
        | .ok (options, diagnosticConfig, configPath) =>
            match options.orElse fun _ =>
                if configName ∈ ["mypy.ini".toList, ".mypy.ini".toList] then
                  some world.mypyDefault
                else none with
            | some projectOptions =>
                .found ⟨projectOptions, diagnosticConfig, some configPath, dir⟩ pyprojectToml
            | none => .next pyprojectToml

/-- The loop over `CONFIG_PATHS`: the paths handed to `on_check_path`, and `end_result` with
`pyproject_toml` after the loop, or the fault that ended it. -/
def checkConfigPaths (dir : List Char) (mode : Option Mode) :
    Option Document → List (List Char) →
      List (List Char) × Except Fault (Option (FoundConfig Options Diagnostics) × Option Document)
  | pyprojectToml, [] => ([], .ok (none, pyprojectToml))
  | pyprojectToml, configName :: rest =>
      match checkConfigPath world vfs dir mode pyprojectToml configName with
      | .next pyprojectToml =>
          let looped := checkConfigPaths dir mode pyprojectToml rest
          (vfs.join dir configName :: looped.1, looped.2)
      | .found config pyprojectToml => ([vfs.join dir configName], .ok (some config, pyprojectToml))
      | .fail fault => ([vfs.join dir configName], .error fault)

/-- After the loop: a `[tool.zuban]` table is applied to `end_result`, which is made from
`default_config` when the loop found nothing. -/
def applyZubanTable (dir : List Char) (mode : Option Mode)
    (endResult : Option (FoundConfig Options Diagnostics)) (pyprojectToml : Option Document) :
    Except Fault (Option (FoundConfig Options Diagnostics)) :=
  match pyprojectToml.bind world.zubanTable with
  | none => .ok endResult
  | some config =>
      let endResult := if endResult.isNone then
        some (defaultConfig world mode (some (vfs.absolutePath dir pyprojectTomlName)) dir)
      else endResult
      match endResult with
      | none => .error .panic
      | some found =>
          match found.configPath with
          | none => .error .panic
          | some configPath =>
              match world.applyPyprojectTable found.projectOptions dir configPath
                  found.diagnosticConfig config true with
              | .error err => .error (.error err)
              | .ok (projectOptions, diagnosticConfig) =>
                  .ok (some { found with projectOptions, diagnosticConfig })

/-- `find_mypy_config_file_in_dir`: the paths handed to `on_check_path`, and the result. -/
def findMypyConfigFileInDir (dir : List Char) (mode : Option Mode) :
    List (List Char) × Except Fault (Option (FoundConfig Options Diagnostics)) :=
  let looped := checkConfigPaths world vfs dir mode none configPaths
  (looped.1, match looped.2 with
    | .error fault => .error fault
    | .ok (endResult, pyprojectToml) => applyZubanTable world vfs dir mode endResult pyprojectToml)

/-! ## No panic

Every `FoundConfig` the loop builds has a `config_path`, and one is made when `end_result` is
empty, so the two `unwrap`s after the loop always find a value. -/

variable {world vfs} {dir : List Char} {mode : Option Mode}

theorem initializeConfig_ok {currentDir configPath : List Char} {content : String}
    {result : Option Options × Diagnostics × List Char}
    (initialized : initializeConfig world currentDir configPath content mode = .ok result) :
    result.2.2 = configPath := by
  unfold initializeConfig at initialized
  split at initialized <;> cases initialized
  rfl

theorem initializeConfig_ne_panic {currentDir configPath : List Char} {content : String} :
    initializeConfig world currentDir configPath content mode ≠ .error .panic := by
  unfold initializeConfig
  split <;> simp

/-- What one pass can do: go on, break with a config of `dir` found at the name's absolute
path, or fail with an error; it never panics. -/
theorem checkConfigPath_cases {pyprojectToml : Option Document} {configName : List Char}
    {pass : Pass Options Diagnostics Document}
    (passed : checkConfigPath world vfs dir mode pyprojectToml configName = pass) :
    (∃ after, pass = .next after) ∨
    (∃ config after, pass = .found config after ∧
      config.configPath = some (vfs.absolutePath dir configName) ∧
      config.mostProbableBase = dir) ∨
    (∃ message, pass = .fail (.error message)) := by
  subst passed
  unfold checkConfigPath
  dsimp only
  cases world.file (vfs.join dir configName) with
  | cannotOpen => exact .inl ⟨_, rfl⟩
  | cannotRead => exact .inr (.inr ⟨_, rfl⟩)
  | contents content =>
      dsimp only
      split
      · cases world.parseToml content with
        | error => exact .inr (.inr ⟨_, rfl⟩)
        | ok document =>
            dsimp only
            rcases world.applyPyprojectTomlMypyPart dir (vfs.absolutePath dir configName) document
              world.defaultDiagnostics mode with _ | ⟨_ | _, _⟩
            · exact .inr (.inr ⟨_, rfl⟩)
            · exact .inl ⟨_, rfl⟩
            · exact .inr (.inl ⟨_, _, rfl, rfl, rfl⟩)
      · rcases initialized :
          initializeConfig world dir (vfs.absolutePath dir configName) content mode with
          fault | ⟨options, diagnosticConfig, configPath⟩
        · cases fault
          · exact .inr (.inr ⟨_, rfl⟩)
          · exact absurd initialized initializeConfig_ne_panic
        · dsimp only
          split
          · exact .inr (.inl ⟨_, _, rfl, congrArg some (initializeConfig_ok initialized), rfl⟩)
          · exact .inl ⟨_, rfl⟩

theorem checkConfigPaths_ne_panic (pyprojectToml : Option Document) (names : List (List Char)) :
    (checkConfigPaths world vfs dir mode pyprojectToml names).2 ≠ .error .panic := by
  induction names generalizing pyprojectToml with
  | nil => simp [checkConfigPaths]
  | cons configName rest inductionHypothesis =>
      unfold checkConfigPaths
      split
      · exact inductionHypothesis _
      · simp
      · rename_i failed
        rcases checkConfigPath_cases failed with
          ⟨_, ⟨⟩⟩ | ⟨_, _, ⟨⟩, -⟩ | ⟨_, ⟨⟩⟩
        simp

theorem checkConfigPaths_found {pyprojectToml after : Option Document} {names : List (List Char)}
    {config : FoundConfig Options Diagnostics}
    (looped : (checkConfigPaths world vfs dir mode pyprojectToml names).2 =
      .ok (some config, after)) :
    ∃ configName ∈ names, config.configPath = some (vfs.absolutePath dir configName) ∧
      config.mostProbableBase = dir := by
  induction names generalizing pyprojectToml with
  | nil => simp [checkConfigPaths] at looped
  | cons configName rest inductionHypothesis =>
      unfold checkConfigPaths at looped
      split at looped
      · obtain ⟨name, member, found⟩ := inductionHypothesis looped
        exact ⟨name, List.mem_cons_of_mem _ member, found⟩
      · rename_i passed
        cases looped
        rcases checkConfigPath_cases passed with
          ⟨_, ⟨⟩⟩ | ⟨_, _, ⟨⟩, located⟩ | ⟨_, ⟨⟩⟩
        exact ⟨configName, List.mem_cons_self _ _, located⟩
      · cases looped

theorem applyZubanTable_ne_panic {endResult : Option (FoundConfig Options Diagnostics)}
    {pyprojectToml : Option Document}
    (pathed : ∀ config, endResult = some config → config.configPath.isSome = true) :
    applyZubanTable world vfs dir mode endResult pyprojectToml ≠ .error .panic := by
  unfold applyZubanTable
  split
  · simp
  · cases endResult with
    | none =>
        simp only [Option.isNone_none, if_true, defaultConfig]
        split <;> simp
    | some config =>
        obtain ⟨configPath, pathedConfig⟩ := Option.isSome_iff_exists.mp (pathed config rfl)
        simp only [Option.isNone_some, Bool.false_eq_true, if_false, pathedConfig]
        split <;> simp

theorem findMypyConfigFileInDir_ne_panic :
    (findMypyConfigFileInDir world vfs dir mode).2 ≠ .error .panic := by
  unfold findMypyConfigFileInDir
  dsimp only
  split
  · rename_i looped
    rintro ⟨⟩
    exact checkConfigPaths_ne_panic none configPaths looped
  · rename_i looped
    refine applyZubanTable_ne_panic fun config found => ?_
    subst found
    obtain ⟨_, -, pathed, -⟩ := checkConfigPaths_found looped
    simp [pathed]

end Search

theorem findMypyConfigFileInDir_never_panics {Mode Options Diagnostics Document Table : Type}
    (world : World Mode Options Diagnostics Document Table) (vfs : VfsHandler) (dir : List Char)
    (mode : Option Mode) : (findMypyConfigFileInDir world vfs dir mode).2 ≠ .error .panic :=
  findMypyConfigFileInDir_ne_panic

/-! ## What the search reports, in every world -/

section Reports

variable {Mode Options Diagnostics Document Table : Type}
  {world : World Mode Options Diagnostics Document Table} {vfs : VfsHandler} {dir : List Char}
  {mode : Option Mode}

/-- The loop hands `on_check_path` the names it reaches, in order, and reaches them all when it
ends without a config. -/
theorem checkConfigPaths_checked (pyprojectToml : Option Document) (names : List (List Char)) :
    ∃ k, (names ≠ [] → 0 < k) ∧
      (checkConfigPaths world vfs dir mode pyprojectToml names).1 =
        (names.take k).map (vfs.join dir) ∧
      ∀ after, (checkConfigPaths world vfs dir mode pyprojectToml names).2 = .ok (none, after) →
        k = names.length := by
  induction names generalizing pyprojectToml with
  | nil => exact ⟨0, by simp, rfl, fun _ _ => rfl⟩
  | cons configName rest inductionHypothesis =>
      unfold checkConfigPaths
      split
      · rename_i next _
        obtain ⟨k, -, checked, all⟩ := inductionHypothesis next
        exact ⟨k + 1, fun _ => k.succ_pos, by simp [checked],
          fun after looped => by simp [all after looped]⟩
      · exact ⟨1, fun _ => Nat.one_pos, by simp, fun _ looped => by cases looped⟩
      · exact ⟨1, fun _ => Nat.one_pos, by simp, fun _ looped => by cases looped⟩

/-- What the table applied after the loop can return: `end_result` itself, or a config with the
path and base of `end_result`, made from `default_config` at the path of `pyproject.toml` when
`end_result` is empty. -/
theorem applyZubanTable_ok {endResult result : Option (FoundConfig Options Diagnostics)}
    {pyprojectToml : Option Document}
    (applied : applyZubanTable world vfs dir mode endResult pyprojectToml = .ok result) :
    result = endResult ∨ ∃ found config, result = some config ∧
      (endResult = some found ∨ endResult = none ∧
        found = defaultConfig world mode (some (vfs.absolutePath dir pyprojectTomlName)) dir) ∧
      config.configPath = found.configPath ∧
        config.mostProbableBase = found.mostProbableBase := by
  unfold applyZubanTable at applied
  cases tabled : pyprojectToml.bind world.zubanTable with
  | none =>
      rw [tabled] at applied
      exact .inl (Except.ok.inj applied).symm
  | some table =>
      rw [tabled] at applied
      obtain ⟨found, made, origin⟩ : ∃ found, (if endResult.isNone then
          some (defaultConfig world mode (some (vfs.absolutePath dir pyprojectTomlName)) dir)
          else endResult) = some found ∧ (endResult = some found ∨ endResult = none ∧
            found =
              defaultConfig world mode (some (vfs.absolutePath dir pyprojectTomlName)) dir) := by
        cases endResult <;> simp
      simp only [made] at applied
      split at applied
      · cases applied
      · split at applied
        · cases applied
        · cases applied
          exact .inr ⟨found, _, rfl, origin, rfl, rfl⟩

/-- In every world, whatever the files hold and the parsers answer,
`find_mypy_config_file_in_dir` hands `on_check_path` the first names of `CONFIG_PATHS` joined
onto `dir`, one at least and all of them when it finds no config; and a config it returns sits
in `dir`, at the absolute path of a name of `CONFIG_PATHS`. -/
theorem findMypyConfigFileInDir_reports (world : World Mode Options Diagnostics Document Table)
    (vfs : VfsHandler) (dir : List Char) (mode : Option Mode) :
    (∃ k, 0 < k ∧
      (findMypyConfigFileInDir world vfs dir mode).1 = (configPaths.take k).map (vfs.join dir) ∧
      ((findMypyConfigFileInDir world vfs dir mode).2 = .ok none → k = configPaths.length)) ∧
    ∀ config, (findMypyConfigFileInDir world vfs dir mode).2 = .ok (some config) →
      ∃ configName ∈ configPaths,
        config.configPath = some (vfs.absolutePath dir configName) ∧
        config.mostProbableBase = dir := by
  obtain ⟨k, positive, checked, all⟩ :=
    @checkConfigPaths_checked Mode Options Diagnostics Document Table world vfs dir mode none
      configPaths
  have reached : 0 < k := positive (by simp [configPaths])
  rcases looped : (checkConfigPaths world vfs dir mode none configPaths).2 with
    fault | ⟨endResult, document⟩
  · have failed : (findMypyConfigFileInDir world vfs dir mode).2 = .error fault := by
      simp [findMypyConfigFileInDir, looped]
    exact ⟨⟨k, reached, checked, fun nothing => by simp [failed] at nothing⟩,
      fun config found => by simp [failed] at found⟩
  have applied : (findMypyConfigFileInDir world vfs dir mode).2 =
      applyZubanTable world vfs dir mode endResult document := by
    simp [findMypyConfigFileInDir, looped]
  rw [applied]
  refine ⟨⟨k, reached, checked, fun nothing => ?_⟩, fun config found => ?_⟩
  · rcases applyZubanTable_ok nothing with same | ⟨_, _, ⟨⟩, -⟩
    exact all document (by rw [looped, ← same])
  · rcases applyZubanTable_ok found with same | ⟨made, _, ⟨⟩, origin, pathed, based⟩
    · exact checkConfigPaths_found (same ▸ looped)
    · rcases origin with rfl | ⟨-, rfl⟩
      · obtain ⟨configName, member, located, based'⟩ := checkConfigPaths_found looped
        exact ⟨configName, member, pathed.trans located, based.trans based'⟩
      · exact ⟨pyprojectTomlName, by simp [configPaths], pathed, based⟩

end Reports

/-! ## The first name that supplies options -/

section FirstSupplier

variable {Mode Options Diagnostics Document Table : Type}
  (world : World Mode Options Diagnostics Document Table) (vfs : VfsHandler)

/-- The document of `pyproject.toml` in `dir`, when the file opens and parses. -/
def pyprojectDocument (dir : List Char) : Option Document :=
  match world.file (vfs.join dir pyprojectTomlName) with
  | .contents content => (world.parseToml content).toOption
  | _ => none

/-- What a name of `CONFIG_PATHS` in `dir` supplies when its file exists and the parsers
succeed: the options and diagnostics of the mypy part of `pyproject.toml`; for the other names
those `from_mypy_ini` reads, with `mypy_default` for `mypy.ini` and `.mypy.ini` when it reads
no options. -/
def supplied (dir : List Char) (mode : Option Mode) (configName : List Char) :
    Option (Options × Diagnostics) :=
  match world.file (vfs.join dir configName) with
  | .contents content =>
      let configPath := vfs.absolutePath dir configName
      if configName = pyprojectTomlName then
        match world.parseToml content with
        | .ok document =>
            match world.applyPyprojectTomlMypyPart dir configPath document
                world.defaultDiagnostics mode with
            | .ok (some options, diagnostics) => some (options, diagnostics)
            | _ => none
        | .error _ => none
      else
        match world.fromMypyIni dir configPath content world.defaultDiagnostics with
        | .ok (some options, diagnostics) => some (options, diagnostics)
        | .ok (none, diagnostics) =>
            if configName = "setup.cfg".toList then none else some (world.mypyDefault, diagnostics)
        | .error _ => none
  | _ => none

/-- The first name of `CONFIG_PATHS` that supplies options, with what it supplies. -/
def firstSupplied (dir : List Char) (mode : Option Mode) :
    Option (List Char × Options × Diagnostics) :=
  configPaths.findSome? fun configName =>
    (supplied world vfs dir mode configName).map (configName, ·)

/-- The calls the search of `dir` makes succeed: the candidate files that open can be read, the
TOML parser and the mypy part succeed on `pyproject.toml`, `from_mypy_ini` on the other files,
and `apply_pyproject_table` on the config the loop ends with, or on `default_config`. -/
structure Succeeds (dir : List Char) (mode : Option Mode) : Prop where
  reads : ∀ configName ∈ configPaths, ∀ err,
    world.file (vfs.join dir configName) ≠ .cannotRead err
  parses : ∀ content, world.file (vfs.join dir pyprojectTomlName) = .contents content →
    ∃ document, world.parseToml content = .ok document
  mypyPart : ∀ content document, world.file (vfs.join dir pyprojectTomlName) = .contents content →
    world.parseToml content = .ok document → ∃ result,
      world.applyPyprojectTomlMypyPart dir (vfs.absolutePath dir pyprojectTomlName) document
        world.defaultDiagnostics mode = .ok result
  fromMypyIni : ∀ configName ∈ configPaths, configName ≠ pyprojectTomlName → ∀ content,
    world.file (vfs.join dir configName) = .contents content → ∃ result,
      world.fromMypyIni dir (vfs.absolutePath dir configName) content world.defaultDiagnostics =
        .ok result
  pyprojectTable : ∀ table, (pyprojectDocument world vfs dir).bind world.zubanTable = some table →
    ∃ result, match firstSupplied world vfs dir mode with
      | some (configName, options, diagnostics) =>
          world.applyPyprojectTable options dir (vfs.absolutePath dir configName) diagnostics table
            true = .ok result
      | none =>
          world.applyPyprojectTable (world.defaultForMode (mode.getD world.defaultMode)) dir
            (vfs.absolutePath dir pyprojectTomlName) world.defaultDiagnostics table true =
              .ok result

theorem plainName_of_mem_configPaths (pf : Platform) {configName : List Char}
    (member : configName ∈ configPaths) : PlainName pf configName := by
  simp only [configPaths, pyprojectTomlName, List.mem_cons, List.mem_singleton, List.not_mem_nil,
    or_false] at member
  rcases member with rfl | rfl | rfl | rfl <;> cases pf <;>
    exact ⟨by decide, by decide, by decide, by decide, by decide⟩

theorem isSuffixOf_eq_false_of_suffix {suffix name text : List Char} (named : name <:+ text)
    (long : suffix.length ≤ name.length) (notSuffix : suffix.isSuffixOf name = false) :
    suffix.isSuffixOf text = false := by
  rw [Bool.eq_false_iff, ne_eq, List.isSuffixOf_iff_suffix] at notSuffix ⊢
  exact fun suffixed => notSuffix (List.suffix_of_suffix_length_le suffixed named long)

/-- The absolute path of a name of `CONFIG_PATHS` other than `pyproject.toml` does not end
with `.toml`, whatever the handler strips: `initialize_config` reads it with `from_mypy_ini`. -/
theorem absolutePath_not_toml {configName : List Char} (member : configName ∈ configPaths)
    (notPyproject : configName ≠ pyprojectTomlName) (dir : List Char) :
    ".toml".toList.isSuffixOf (vfs.absolutePath dir configName) = false := by
  have plain := plainName_of_mem_configPaths vfs.platform member
  obtain ⟨front, pushed⟩ := push_plainName plain dir
  have checks : (".toml".toList.isSuffixOf configName = false ∧ 5 ≤ configName.length) ∧
      (".toml".toList.isSuffixOf configName.dropLast = false ∧
        5 ≤ configName.dropLast.length) := by
    simp only [configPaths, List.mem_cons, List.mem_singleton, List.not_mem_nil, or_false] at member
    rcases member with rfl | rfl | rfl | rfl
    · exact absurd rfl notPyproject
    all_goals decide
  rw [VfsHandler.absolutePath, plain.isAbsolute_eq, if_neg (by simp), VfsHandler.join, Path.join,
    ← pushed, VfsHandler.uncheckedAbsPath_eq]
  split
  · rw [List.dropLast_append_of_ne_nil _ plain.notEmpty]
    exact isSuffixOf_eq_false_of_suffix (List.suffix_append _ _) checks.2.2 checks.2.1
  · exact isSuffixOf_eq_false_of_suffix (List.suffix_append _ _) checks.1.2 checks.1.1

/-- The table applied to a config found at `configPath`: `apply_pyproject_table` of its options
and diagnostics, with its path and base kept. -/
theorem applyZubanTable_found {dir : List Char} {mode : Option Mode} (options : Options)
    (diagnostics : Diagnostics) (configPath base : List Char) (pyprojectToml : Option Document) :
    applyZubanTable world vfs dir mode (some ⟨options, diagnostics, some configPath, base⟩)
        pyprojectToml =
      match pyprojectToml.bind world.zubanTable with
      | none => .ok (some ⟨options, diagnostics, some configPath, base⟩)
      | some table =>
          match world.applyPyprojectTable options dir configPath diagnostics table true with
          | .error err => .error (.error err)
          | .ok (options, diagnostics) =>
              .ok (some ⟨options, diagnostics, some configPath, base⟩) := by
  unfold applyZubanTable
  cases pyprojectToml.bind world.zubanTable <;> rfl

/-- With no config from the loop, a table is applied to `default_config` at the path of
`pyproject.toml`. -/
theorem applyZubanTable_default {dir : List Char} {mode : Option Mode}
    (pyprojectToml : Option Document) :
    applyZubanTable world vfs dir mode none pyprojectToml =
      match pyprojectToml.bind world.zubanTable with
      | none => .ok none
      | some _ => applyZubanTable world vfs dir mode
          (some (defaultConfig world mode (some (vfs.absolutePath dir pyprojectTomlName)) dir))
          pyprojectToml := by
  unfold applyZubanTable
  cases pyprojectToml.bind world.zubanTable <;> rfl

variable {world vfs} {dir : List Char} {mode : Option Mode}

/-- In a search that succeeds, `pyproject.toml` breaks the loop with what it supplies, if
anything, and leaves its document behind either way. -/
theorem checkConfigPath_pyproject (succeeds : Succeeds world vfs dir mode) :
    checkConfigPath world vfs dir mode none pyprojectTomlName =
      match supplied world vfs dir mode pyprojectTomlName with
      | some (options, diagnostics) =>
          .found ⟨options, diagnostics, some (vfs.absolutePath dir pyprojectTomlName), dir⟩
            (pyprojectDocument world vfs dir)
      | none => .next (pyprojectDocument world vfs dir) := by
  unfold checkConfigPath supplied pyprojectDocument
  dsimp only
  cases file : world.file (vfs.join dir pyprojectTomlName) with
  | cannotOpen => rfl
  | cannotRead err => exact absurd file (succeeds.reads _ (by simp [configPaths]) err)
  | contents content =>
      obtain ⟨document, parsed⟩ := succeeds.parses content file
      obtain ⟨⟨options, diagnostics⟩, mypyPart⟩ :=
        succeeds.mypyPart content document file parsed
      simp only [if_true, parsed, mypyPart, Except.toOption]
      cases options <;> rfl

/-- In a search that succeeds, any other name breaks the loop with what it supplies, if
anything, and leaves `pyproject_toml` alone. -/
theorem checkConfigPath_ini (succeeds : Succeeds world vfs dir mode) {configName : List Char}
    (member : configName ∈ configPaths) (notPyproject : configName ≠ pyprojectTomlName)
    (pyprojectToml : Option Document) :
    checkConfigPath world vfs dir mode pyprojectToml configName =
      match supplied world vfs dir mode configName with
      | some (options, diagnostics) =>
          .found ⟨options, diagnostics, some (vfs.absolutePath dir configName), dir⟩
            pyprojectToml
      | none => .next pyprojectToml := by
  unfold checkConfigPath supplied initializeConfig
  dsimp only
  cases file : world.file (vfs.join dir configName) with
  | cannotOpen => rfl
  | cannotRead err => exact absurd file (succeeds.reads _ member err)
  | contents content =>
      obtain ⟨⟨options, diagnostics⟩, ini⟩ :=
        succeeds.fromMypyIni _ member notPyproject content file
      simp only [if_neg notPyproject, absolutePath_not_toml vfs member notPyproject, ini,
        Bool.false_eq_true, if_false]
      cases options with
      | some options => rfl
      | none =>
          simp only [configPaths, List.mem_cons, List.mem_singleton, List.not_mem_nil,
            or_false] at member
          rcases member with rfl | rfl | rfl | rfl
          · exact absurd rfl notPyproject
          all_goals rfl

/-- The loop over the names after `pyproject.toml`, in a search that succeeds: it stops at the
first name that supplies options, with a config of what it supplies, after handing every name
up to it to `on_check_path`. -/
theorem checkConfigPaths_ini (succeeds : Succeeds world vfs dir mode)
    (pyprojectToml : Option Document) {names : List (List Char)}
    (inPaths : ∀ configName ∈ names,
      configName ∈ configPaths ∧ configName ≠ pyprojectTomlName) :
    checkConfigPaths world vfs dir mode pyprojectToml names =
      match names.findSome? fun configName =>
          (supplied world vfs dir mode configName).map (configName, ·) with
      | some (configName, options, diagnostics) =>
          ((names.takeWhile (· != configName) ++ [configName]).map (vfs.join dir),
            .ok (some ⟨options, diagnostics, some (vfs.absolutePath dir configName), dir⟩,
              pyprojectToml))
      | none => (names.map (vfs.join dir), .ok (none, pyprojectToml)) := by
  induction names with
  | nil => rfl
  | cons configName rest inductionHypothesis =>
      obtain ⟨member, notPyproject⟩ := inPaths configName (List.mem_cons_self _ _)
      rw [checkConfigPaths, checkConfigPath_ini succeeds member notPyproject, List.findSome?_cons]
      cases supplying : supplied world vfs dir mode configName with
      | some supply => simp
      | none =>
          dsimp only
          rw [inductionHypothesis fun name member => inPaths name (List.mem_cons_of_mem _ member)]
          cases firstSupplier : rest.findSome? fun configName =>
              (supplied world vfs dir mode configName).map (configName, ·) with
          | none => simp
          | some found =>
              obtain ⟨name, options, diagnostics⟩ := found
              obtain ⟨other, -, same⟩ := List.exists_of_findSome?_eq_some firstSupplier
              have distinct : configName ≠ name := by
                rintro rfl
                obtain ⟨supplyingOther, rfl⟩ : supplied world vfs dir mode other =
                    some (options, diagnostics) ∧ other = configName := by simpa using same
                simp [supplying] at supplyingOther
              simp [distinct]

/-- In a search that succeeds, the loop stops at the first name that supplies options, with a
config of what it supplies, and the table is applied to it or, without one, to
`default_config`. -/
theorem findMypyConfigFileInDir_supplied (succeeds : Succeeds world vfs dir mode) :
    findMypyConfigFileInDir world vfs dir mode =
      match firstSupplied world vfs dir mode with
      | some (configName, options, diagnostics) =>
          ((configPaths.takeWhile (· != configName) ++ [configName]).map (vfs.join dir),
            applyZubanTable world vfs dir mode
              (some ⟨options, diagnostics, some (vfs.absolutePath dir configName), dir⟩)
              (pyprojectDocument world vfs dir))
      | none => (configPaths.map (vfs.join dir),
          applyZubanTable world vfs dir mode none (pyprojectDocument world vfs dir)) := by
  have tail := @checkConfigPaths_ini Mode Options Diagnostics Document Table world vfs dir mode
    succeeds (pyprojectDocument world vfs dir) configPaths.tail (by decide)
  unfold findMypyConfigFileInDir firstSupplied
  rw [show configPaths = pyprojectTomlName :: configPaths.tail from rfl, checkConfigPaths,
    checkConfigPath_pyproject succeeds, List.findSome?_cons]
  cases supplied world vfs dir mode pyprojectTomlName with
  | some supply => simp
  | none =>
      dsimp only
      rw [tail]
      cases firstSupplier : configPaths.tail.findSome? fun configName =>
          (supplied world vfs dir mode configName).map (configName, ·) with
      | none => simp
      | some found =>
          obtain ⟨name, options, diagnostics⟩ := found
          obtain ⟨other, member, same⟩ := List.exists_of_findSome?_eq_some firstSupplier
          obtain ⟨-, rfl⟩ : supplied world vfs dir mode other = some (options, diagnostics) ∧
              other = name := by simpa using same
          have distinct : pyprojectTomlName ≠ other := by
            rintro rfl
            revert member
            decide
          simp [distinct]

end FirstSupplier

/-- When the files read and the parser calls the search makes succeed,
`find_mypy_config_file_in_dir` does not panic. It hands `on_check_path` the names up to the first
that supplies options and returns a config of `dir` found there, of the options and diagnostics
that name supplies with a `[tool.zuban]` table applied on top. When no name supplies options it
returns `default_config` with the table applied if `pyproject.toml` has one, and nothing
otherwise. -/
theorem findMypyConfigFileInDir_firstSupplier {Mode Options Diagnostics Document Table : Type}
    (world : World Mode Options Diagnostics Document Table) (vfs : VfsHandler) (dir : List Char)
    (mode : Option Mode) (succeeds : Succeeds world vfs dir mode) :
    (findMypyConfigFileInDir world vfs dir mode).2 ≠ .error .panic ∧
    match firstSupplied world vfs dir mode with
    | some (configName, options, diagnostics) =>
        (findMypyConfigFileInDir world vfs dir mode).1 =
          (configPaths.takeWhile (· != configName) ++ [configName]).map (vfs.join dir) ∧
        ∃ config, (findMypyConfigFileInDir world vfs dir mode).2 = .ok (some config) ∧
          config.configPath = some (vfs.absolutePath dir configName) ∧
          config.mostProbableBase = dir ∧
          match (pyprojectDocument world vfs dir).bind world.zubanTable with
          | some table => world.applyPyprojectTable options dir (vfs.absolutePath dir configName)
              diagnostics table true = .ok (config.projectOptions, config.diagnosticConfig)
          | none => config.projectOptions = options ∧ config.diagnosticConfig = diagnostics
    | none =>
        (findMypyConfigFileInDir world vfs dir mode).1 = configPaths.map (vfs.join dir) ∧
        match (pyprojectDocument world vfs dir).bind world.zubanTable with
        | some table => ∃ config,
            (findMypyConfigFileInDir world vfs dir mode).2 = .ok (some config) ∧
            config.configPath = some (vfs.absolutePath dir pyprojectTomlName) ∧
            config.mostProbableBase = dir ∧
            world.applyPyprojectTable (world.defaultForMode (mode.getD world.defaultMode)) dir
              (vfs.absolutePath dir pyprojectTomlName) world.defaultDiagnostics table true =
                .ok (config.projectOptions, config.diagnosticConfig)
        | none => (findMypyConfigFileInDir world vfs dir mode).2 = .ok none := by
  refine ⟨findMypyConfigFileInDir_ne_panic, ?_⟩
  have tabled := succeeds.pyprojectTable
  rw [findMypyConfigFileInDir_supplied succeeds]
  cases supplier : firstSupplied world vfs dir mode with
  | some found =>
      obtain ⟨configName, options, diagnostics⟩ := found
      simp only [supplier] at tabled
      refine ⟨rfl, ?_⟩
      simp only [applyZubanTable_found]
      cases tabledDir : (pyprojectDocument world vfs dir).bind world.zubanTable with
      | none => exact ⟨_, rfl, rfl, rfl, rfl, rfl⟩
      | some table =>
          obtain ⟨⟨options', diagnostics'⟩, applied⟩ := tabled table tabledDir
          simp only [applied]
          exact ⟨_, rfl, rfl, rfl, rfl⟩
  | none =>
      simp only [supplier] at tabled
      refine ⟨rfl, ?_⟩
      simp only [applyZubanTable_default, defaultConfig, applyZubanTable_found]
      cases tabledDir : (pyprojectDocument world vfs dir).bind world.zubanTable with
      | none => rfl
      | some table =>
          obtain ⟨⟨options', diagnostics'⟩, applied⟩ := tabled table tabledDir
          simp only [applied]
          exact ⟨_, rfl, rfl, rfl, rfl⟩

/-- A directory `/p` holding `mypy.ini` and a `pyproject.toml` with a `[tool.zuban]` table;
the parsers find no mypy options, and the table adds one to the options. -/
def mypyIniWorld : World Unit Nat Unit Unit Unit where
  file path := if path = "/p/mypy.ini".toList ∨ path = "/p/pyproject.toml".toList then
    .contents "" else .cannotOpen "not found"
  parseToml _ := .ok ()
  zubanTable _ := some ()
  applyPyprojectTomlMypyPart _ _ _ _ _ := .ok (none, ())
  fromPyprojectTomlOnly _ _ _ _ _ := .ok (none, ())
  fromMypyIni _ _ _ _ := .ok (none, ())
  applyPyprojectTable options _ _ _ _ _ := .ok (options + 1, ())
  mypyDefault := 1
  defaultForMode _ := 0
  defaultMode := ()
  defaultDiagnostics := ()

theorem findMypyConfigFileInDir_firstSupplier_mypyIni :
    Succeeds mypyIniWorld (VfsHandler.native .unix) "/p".toList none ∧
      ∃ config, (findMypyConfigFileInDir mypyIniWorld (VfsHandler.native .unix) "/p".toList
        none).2 = .ok (some config) ∧ config.configPath = some "/p/mypy.ini".toList ∧
        config.projectOptions = 2 := by
  have supplier : firstSupplied mypyIniWorld (VfsHandler.native .unix) "/p".toList none =
      some ("mypy.ini".toList, 1, ()) := by decide
  have tabled : (pyprojectDocument mypyIniWorld (VfsHandler.native .unix) "/p".toList).bind
      mypyIniWorld.zubanTable = some () := by decide
  have succeeds : Succeeds mypyIniWorld (VfsHandler.native .unix) "/p".toList none :=
    ⟨fun _ _ _ => by simp only [mypyIniWorld]; split <;> simp, fun _ _ => ⟨(), rfl⟩,
      fun _ _ _ _ => ⟨_, rfl⟩, fun _ _ _ _ _ => ⟨_, rfl⟩,
      fun _ _ => by rw [supplier]; exact ⟨_, rfl⟩⟩
  have found := (findMypyConfigFileInDir_firstSupplier mypyIniWorld (VfsHandler.native .unix)
    "/p".toList none succeeds).2
  rw [supplier] at found
  obtain ⟨-, config, result, located, -, applied⟩ := found
  rw [tabled] at applied
  obtain ⟨added, -⟩ := Prod.mk.inj (Except.ok.inj applied)
  exact ⟨succeeds, config, result, by rw [located]; decide, added.symm⟩

end Zuban.Config
