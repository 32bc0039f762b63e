import Zuban.Vfs.Split
import Zuban.Path.Verbatim

/-!
# The `AbsPath` invariant

An `AbsPath` is absolute and, unless it is a root, does not end with a separator the handler
accepts. `unchecked_abs_path` strips one such separator, `join` and `absolute_path` pass
`Path::join` through `unchecked_abs_path`, and `parent_of_absolute_path` is `Path::parent`.
Stripping one separator is not enough after two of them, and it takes the root away from `/`.
A verbatim path reads `\` alone as a separator, so its names may end with `/`, which
`Path::parent` and the verbatim rebuild of `Path::join` hand back; the rebuild otherwise ends
with a name, `.`, `..`, or the prefix and its root.
-/

namespace Zuban.Vfs

open Zuban.Path

namespace VfsHandler

variable (vfs : VfsHandler)

def endsWithSeparator (path : List Char) : Bool := path.getLast?.any vfs.accepts

/-- The invariant of `AbsPath`: absolute, and a root or free of a trailing separator. -/
def isAbsPath (path : List Char) : Bool :=
  isAbsolute vfs.platform path && (isRoot vfs.platform path || !vfs.endsWithSeparator path)

variable {vfs}

theorem isAbsPath_iff {path : List Char} :
    vfs.isAbsPath path = true ↔ isAbsolute vfs.platform path = true ∧
      (isRoot vfs.platform path = true ∨ vfs.endsWithSeparator path = false) := by
  simp [isAbsPath]

theorem stripSeparatorSuffix_eq (path : List Char) :
    vfs.stripSeparatorSuffix path =
      if vfs.endsWithSeparator path then some path.dropLast else none := by
  unfold stripSeparatorSuffix stripSeparatorWith endsWithSeparator accepts stripSuffix
  cases last : path.getLast? with
  | none => simp
  | some c =>
      by_cases same : c = vfs.separator
      · simp [same]
      · cases windows : vfs.windows <;> by_cases slash : c = '/' <;> simp_all [Ne.symm same]

theorem uncheckedAbsPath_eq (path : List Char) :
    vfs.uncheckedAbsPath path = if vfs.endsWithSeparator path then path.dropLast else path := by
  by_cases ends : vfs.endsWithSeparator path <;>
    simp [uncheckedAbsPath, stripSeparatorSuffix_eq, ends]

@[simp] theorem native_platform (pf : Platform) : (native pf).platform = pf := rfl

@[simp] theorem native_accepts (pf : Platform) (c : Char) :
    (native pf).accepts c = pf.isSepByte c := by
  cases pf <;> simp [accepts, native, windows, Platform.mainSeparator, Platform.isSepByte,
    Windows.isSepByte, Bool.or_comm]

end VfsHandler

open VfsHandler

section Ends

variable {vfs : VfsHandler}

theorem endsWithSeparator_append (front : List Char) {rest : List Char} (nonempty : rest ≠ []) :
    vfs.endsWithSeparator (front ++ rest) = vfs.endsWithSeparator rest := by
  rw [endsWithSeparator, endsWithSeparator, List.getLast?_append_of_ne_nil _ nonempty]

end Ends

/-! ## `unchecked_abs_path` -/

/-- Without a prefix a path starts with a separator exactly when it has a root. -/
theorem head_isSepByte_of_noPrefix {pf : Platform} {name : List Char}
    (prefixNone : pf.parsePrefix name = none) : name.head?.any pf.isSepByte = hasRoot pf name := by
  simp [hasRoot, prefixNone, hasPhysicalRoot_eq_head, prefixLen]

end Zuban.Vfs
