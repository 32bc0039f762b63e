import Zuban.Config.Search
import Mathlib.Data.List.Chain

/-!
# The config of the command line

Without a config file, `find_cli_config` asks `find_mypy_config_file_in_dir` about the current
directory and then about each parent in turn, and returns the first error or config it gets;
after the root it falls back to `default_config`. `Path::parent` always gives a shorter path,
so the loop ends; it walks the chain of ancestors of the current directory. Neither the loop
nor `find_workspace_config`, which asks the workspace directory alone, can panic; a given config
file panics when its path is a root, which has no parent to be the base.
-/

namespace Zuban.Config

open Zuban.Path Zuban.Vfs

/-- The directories from `path` up to its root, each the parent of the one before. -/
def ancestors (pf : Platform) (path : List Char) : List (List Char) :=
  path :: match _parented : parent pf path with
    | some outer => ancestors pf outer
    | none => []
termination_by path.length
decreasing_by exact (parent_isPrefix pf path (by assumption)).2

section Ancestors

variable (pf : Platform)

theorem ancestors_of_parent {path outer : List Char} (parented : parent pf path = some outer) :
    ancestors pf path = path :: ancestors pf outer := by
  rw [ancestors]
  split <;> simp_all

theorem ancestors_of_root {path : List Char} (root : parent pf path = none) :
    ancestors pf path = [path] := by
  rw [ancestors]
  split <;> simp_all

theorem head?_ancestors (path : List Char) : (ancestors pf path).head? = some path := by
  rw [ancestors]
  rfl

/-- Each ancestor is the parent of the one before. -/
theorem ancestors_chain (path : List Char) :
    (ancestors pf path).Chain' (fun dir outer => parent pf dir = some outer) := by
  cases parented : parent pf path with
  | none => simp [ancestors_of_root pf parented]
  | some outer =>
      rw [ancestors_of_parent pf parented, List.chain'_cons']
      exact ⟨by simp [head?_ancestors, parented], ancestors_chain outer⟩
termination_by path.length
decreasing_by exact (parent_isPrefix pf path parented).2

/-- The last ancestor is a root. -/
theorem ancestors_last (path : List Char) :
    ∀ root ∈ (ancestors pf path).getLast?, isRoot pf root = true := by
  cases parented : parent pf path with
  | none =>
      simp only [ancestors_of_root pf parented, List.getLast?_singleton, Option.mem_def,
        Option.some.injEq, forall_eq']
      exact (parent_eq_none_iff pf path).mp parented
  | some outer =>
      have nonempty : ancestors pf outer ≠ [] := by
        rw [ancestors]
        exact List.cons_ne_nil _ _
      rw [ancestors_of_parent pf parented, ← List.singleton_append,
        List.getLast?_append_of_ne_nil _ nonempty]
      exact ancestors_last outer
termination_by path.length
decreasing_by exact (parent_isPrefix pf path parented).2

/-- The ancestors get shorter one after the other, so none comes twice. -/
theorem ancestors_pairwise (path : List Char) :
    (ancestors pf path).Pairwise (fun dir outer => outer.length < dir.length) := by
  have : IsTrans (List Char) (fun dir outer => outer.length < dir.length) :=
    ⟨fun _ _ _ first second => second.trans first⟩
  exact List.chain'_iff_pairwise.mp <| (ancestors_chain pf path).imp fun dir _ parented =>
    (parent_isPrefix pf dir parented).2

theorem length_ancestors_le (path : List Char) :
    (ancestors pf path).length ≤ path.length + 1 := by
  cases parented : parent pf path with
  | none => simp [ancestors_of_root pf parented]
  | some outer =>
      have shorter := (parent_isPrefix pf path parented).2
      have inductionHypothesis := length_ancestors_le outer
      rw [ancestors_of_parent pf parented, List.length_cons]
      omega
termination_by path.length
decreasing_by exact (parent_isPrefix pf path parented).2

end Ancestors

/-- How the loop of `find_cli_config` leaves after one directory: an error or a config ends
it, `Ok(None)` goes on to the parent. -/
def loopExit {Found : Type} : Except Fault (Option Found) → Option (Except Fault Found)
  | .error fault => some (.error fault)
  | .ok (some found) => some (.ok found)
  | .ok none => none

section CliConfig

variable {Mode Options Diagnostics Document Table : Type}
  (world : World Mode Options Diagnostics Document Table) (vfs : VfsHandler)

/-- The loop of `find_cli_config` without a config file, from `current` on: the directories it
asks, and how it leaves. -/
def searchUpwards (mode : Option Mode) (current : List Char) :
    List (List Char) × Except Fault (Option (FoundConfig Options Diagnostics)) :=
  match (findMypyConfigFileInDir world vfs current mode).2 with
  | .error fault => ([current], .error fault)
  | .ok (some found) => ([current], .ok (some found))
  | .ok none =>
      match _parented : vfs.parentOfAbsolutePath current with
      | some outer =>
          let searched := searchUpwards mode outer
          (current :: searched.1, searched.2)
      | none => ([current], .ok none)
termination_by current.length
decreasing_by exact (parent_isPrefix vfs.platform current (by assumption)).2

/-- `find_cli_config`. The config file is given as `to_str` sees it: `none` inside when it is
not UTF-8. -/
def findCliConfig (currentDir : List Char) (configFile : Option (Option (List Char)))
    (mode : Option Mode) : Except Fault (FoundConfig Options Diagnostics) :=
  match configFile with
  | some none => .error (.error "Expected a valid UTF-8 encoded config path")
  | some (some configPath) =>
      let configPath := vfs.absolutePath currentDir configPath
      match (world.file configPath).readToString with
      | .error err =>
          .error (.error ("Issue while reading " ++ String.mk configPath ++ ": " ++ err))
      | .ok content =>
          match vfs.parentOfAbsolutePath configPath with
          | none => .error .panic
          | some mostProbableBase =>
              match initializeConfig world currentDir configPath content mode with
              | .error fault => .error fault
              | .ok (options, diagnosticConfig, configPath) =>
                  .ok ⟨options.getD world.mypyDefault, diagnosticConfig, some configPath,
                    mostProbableBase⟩
  | none =>
      match (searchUpwards world vfs mode currentDir).2 with
      | .error fault => .error fault
      | .ok (some found) => .ok found
      | .ok none => .ok (defaultConfig world mode none currentDir)

variable {world vfs}

/-- The loop asks the ancestors of `current` in order, up to the first that gives an error or
a config, and leaves with what that one gave. -/
theorem searchUpwards_ancestors (mode : Option Mode) (current : List Char) :
    (searchUpwards world vfs mode current).1 =
        (ancestors vfs.platform current).take ((ancestors vfs.platform current).findIdx
          (fun dir => (loopExit (findMypyConfigFileInDir world vfs dir mode).2).isSome) + 1) ∧
      loopExit (searchUpwards world vfs mode current).2 =
        (ancestors vfs.platform current).findSome?
          (fun dir => loopExit (findMypyConfigFileInDir world vfs dir mode).2) := by
  obtain ⟨rest, chained⟩ : ∃ rest, ancestors vfs.platform current = current :: rest :=
    ⟨_, by rw [ancestors]⟩
  rw [searchUpwards]
  cases answered : (findMypyConfigFileInDir world vfs current mode).2 with
  | error fault => simp [chained, List.findIdx_cons, List.findSome?_cons, answered, loopExit]
  | ok found =>
      cases found with
      | some found => simp [chained, List.findIdx_cons, List.findSome?_cons, answered, loopExit]
      | none =>
          dsimp only
          split
          · rename_i outer parented
            obtain ⟨traced, exited⟩ := searchUpwards_ancestors mode outer
            rw [ancestors_of_parent vfs.platform parented, List.findSome?_cons, answered]
            exact ⟨by simp [List.findIdx_cons, answered, loopExit, traced], exited⟩
          · rename_i root
            rw [ancestors_of_root vfs.platform root]
            simp [List.findIdx_cons, List.findSome?_cons, answered, loopExit]
termination_by current.length
decreasing_by exact (parent_isPrefix vfs.platform current (by assumption)).2

theorem findCliConfig_none (currentDir : List Char) (mode : Option Mode) :
    findCliConfig world vfs currentDir none mode =
      (loopExit (searchUpwards world vfs mode currentDir).2).getD
        (.ok (defaultConfig world mode none currentDir)) := by
  unfold findCliConfig
  cases (searchUpwards world vfs mode currentDir).2 with
  | error => rfl
  | ok found => cases found <;> rfl

end CliConfig

/-- Without a config file, `find_cli_config` asks the current directory and then each parent
in turn, each directory once, up to the first that gives an error or a config, or up to and
including the root; it returns that error or config unchanged, and otherwise `default_config`
with no config path and the current directory as base. -/
theorem findCliConfig_upwards {Mode Options Diagnostics Document Table : Type}
    (world : World Mode Options Diagnostics Document Table) (vfs : VfsHandler)
    (currentDir : List Char) (mode : Option Mode) :
    let chain := ancestors vfs.platform currentDir
    let answer := fun dir => loopExit (findMypyConfigFileInDir world vfs dir mode).2
    chain.head? = some currentDir ∧
    chain.Chain' (fun dir outer => vfs.parentOfAbsolutePath dir = some outer) ∧
    (∀ root ∈ chain.getLast?,
      vfs.parentOfAbsolutePath root = none ∧ isRoot vfs.platform root = true) ∧
    chain.Nodup ∧ chain.length ≤ currentDir.length + 1 ∧
    (searchUpwards world vfs mode currentDir).1 =
      chain.take (chain.findIdx (fun dir => (answer dir).isSome) + 1) ∧
    findCliConfig world vfs currentDir none mode =
      (chain.findSome? answer).getD (.ok (defaultConfig world mode none currentDir)) ∧
    (defaultConfig world mode none currentDir).configPath = none ∧
    (defaultConfig world mode none currentDir).mostProbableBase = currentDir := by
  have searched := @searchUpwards_ancestors _ _ _ _ _ world vfs mode currentDir
  refine ⟨head?_ancestors _ _, ancestors_chain _ _, fun root last =>
    ⟨(parent_eq_none_iff _ _).mpr (ancestors_last _ _ root last), ancestors_last _ _ root last⟩,
    (ancestors_pairwise _ _).imp fun shorter same => by subst same; omega,
    length_ancestors_le _ _, searched.1, by rw [findCliConfig_none, searched.2], rfl, rfl⟩

end Zuban.Config
