import Zuban.Path.Push

/-!
# The path defaults of `VfsHandler`

The default methods of the `VfsHandler` trait that work on path text: separators, absolute
paths, joining, the parent, relative paths, and splitting off the first or last item. A
backend may override `separator`; the rest is the trait's default bodies.
-/

namespace Zuban.Vfs

open Zuban.Path

/-- What the path defaults of a `VfsHandler` read: the target, which fixes
`cfg!(target_os = "windows")` and the `std::path` conventions, and `separator()`. -/
structure VfsHandler where
  platform : Platform
  separator : Char
  /-- `split_off_first_item` and `split_off_last_item` slice at `pos + 1`, a char boundary
  only behind a one-byte separator: with a wider `separator()` they panic. -/
  oneByte : separator.utf8Size = 1

/-- `str::strip_prefix` with a character pattern. -/
def stripPrefix (path : List Char) (c : Char) : Option (List Char) :=
  match path with
  | x :: rest => if x = c then some rest else none
  | [] => none

/-- `str::strip_suffix` with a character pattern. -/
def stripSuffix (path : List Char) (c : Char) : Option (List Char) :=
  if path.getLast? = some c then some path.dropLast else none

/-- `str::find` with a character pattern. -/
def find (c : Char) : List Char → Option Nat
  | [] => none
  | x :: rest => if x = c then some 0 else (find c rest).map (· + 1)

/-- `str::rfind` with a character pattern. -/
def rfind (c : Char) : List Char → Option Nat
  | [] => none
  | x :: rest =>
      match rfind c rest with
      | some i => some (i + 1)
      | none => if x = c then some 0 else none

/-- The common-prefix loop of `path_relative_to`: step both iterators while they peek the
same component. -/
def dropCommon : List Component → List Component → List Component × List Component
  | a :: fromIt, b :: toIt => if a = b then dropCommon fromIt toIt else (a :: fromIt, b :: toIt)
  | fromIt, toIt => (fromIt, toIt)

/-- The last loop of `path_relative_to`: the normal components left in `from`, a separator
before all but the first. -/
def pushNormals (separator : Char) : Bool → List Component → List Char
  | _, [] => []
  | needsSeparator, .normal name :: rest =>
      (if needsSeparator then [separator] else []) ++ name ++ pushNormals separator true rest
  | needsSeparator, _ :: rest => pushNormals separator needsSeparator rest

/-- `path_relative_to`: the path from directory `toPath` to `fromPath`. -/
def pathRelativeTo (pf : Platform) (fromPath toPath : List Char) (separator : Char) :
    Option (List Char) :=
  match components pf fromPath, components pf toPath with
  | a :: fromIt, b :: toIt =>
      if a = b then
        let rest := dropCommon fromIt toIt
        some (rest.2.flatMap (fun _ => ['.', '.', separator]) ++ pushNormals separator false rest.1)
      else none
  | _, _ => none

/-- The cases of the crate's own test_path_relative_to. -/
example :
    let check := fun (target : String) =>
      (pathRelativeTo .unix "/foo/bar/baz".toList target.toList '/').map String.mk
    check "/foo/bar" = some "baz" ∧ check "/foo/bar/" = some "baz" ∧
      check "/foo/" = some "bar/baz" ∧ check "/foo" = some "bar/baz" ∧
      check "/" = some "foo/bar/baz" ∧ check "/bar" = some "../foo/bar/baz" ∧
      check "/baz" = some "../foo/bar/baz" ∧ check "/foo/other" = some "../bar/baz" ∧
      check "/foo/other/other2" = some "../../bar/baz" ∧
      check "/foo/bar/other" = some "../baz" ∧
      check "/foo/bar/other/other2" = some "../../baz" ∧
      pathRelativeTo .unix "/".toList [] '/' = none ∧
      pathRelativeTo .unix "/".toList "/".toList '/' = some [] ∧
      pathRelativeTo .unix "/".toList "/foo".toList '/' = some "../".toList := by
  decide

namespace VfsHandler

/-- A backend that keeps the default `separator()`, `std::path::MAIN_SEPARATOR`. -/
def native (pf : Platform) : VfsHandler := ⟨pf, pf.mainSeparator, by cases pf <;> rfl⟩

variable (vfs : VfsHandler)

/-- `cfg!(target_os = "windows")`. -/
def windows : Bool := vfs.platform = .windows

/-- The body `strip_separator_prefix` and `strip_separator_suffix` share: strip
`separator()`, and on Windows `/` when that fails. -/
def stripSeparatorWith (strip : List Char → Char → Option (List Char)) (path : List Char) :
    Option (List Char) :=
  let result := strip path vfs.separator
  if vfs.windows then result.orElse fun _ => strip path '/' else result

def stripSeparatorPrefix (path : List Char) : Option (List Char) :=
  vfs.stripSeparatorWith stripPrefix path

def stripSeparatorSuffix (path : List Char) : Option (List Char) :=
  vfs.stripSeparatorWith stripSuffix path

def uncheckedAbsPath (path : List Char) : List Char :=
  match vfs.stripSeparatorSuffix path with
  | some newRootPath => newRootPath
  | none => path

def join (path name : List Char) : List Char :=
  vfs.uncheckedAbsPath (Path.join vfs.platform path name)

def absolutePath (currentDir path : List Char) : List Char :=
  if isAbsolute vfs.platform path then vfs.uncheckedAbsPath path else vfs.join currentDir path

def parentOfAbsolutePath (path : List Char) : Option (List Char) :=
  parent vfs.platform path

def pathRelativeTo (fromPath toPath : List Char) : Option (List Char) :=
  Vfs.pathRelativeTo vfs.platform fromPath toPath vfs.separator

/-- The `found` that `split_off_first_item` cuts at. -/
def firstFound (path : List Char) : Option Nat :=
  let found := find vfs.separator path
  if vfs.windows then
    -- Windows allows path with mixed separators
    match find '/' path with
    | some foundSlash => if found.all (· ≤ foundSlash) then some foundSlash else found
    | none => found
  else found

/-- `split_off_first_item`. Positions count characters: the separators cut at are one byte,
so `&path[..pos]` and `&path[pos + 1..]` are the texts on either side. -/
def splitOffFirstItem (path : List Char) : List Char × Option (List Char) :=
  match vfs.firstFound path with
  | some pos => (path.take pos, some (path.drop (pos + 1)))
  | none => (path, none)

/-- The `found` that `split_off_last_item` cuts at. -/
def lastFound (path : List Char) : Option Nat :=
  let found := rfind vfs.separator path
  if vfs.windows then
    -- Windows allows path with mixed separators
    match rfind '/' path with
    | some foundSlash => if found.all (· ≥ foundSlash) then some foundSlash else found
    | none => found
  else found

/-- `split_off_last_item`, with positions counted as in `splitOffFirstItem`. -/
def splitOffLastItem (path : List Char) : Option (List Char) × List Char :=
  match vfs.lastFound path with
  | some pos => (some (path.take pos), path.drop (pos + 1))
  | none => (none, path)

end VfsHandler

end Zuban.Vfs
