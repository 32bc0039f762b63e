import Zuban.Path.Joined
import Zuban.Vfs.JoinParent

/-!
# What `join` and `absolute_path` write

`VfsHandler::join` is `Path::join` with one trailing separator stripped. Read back by
`Path::components`, a relative name joined onto an absolute base without a verbatim prefix
gives the base's components and then the name's, less a leading `.`: a separator the name
ends with is stripped, and it cut nothing off. `absolute_path` is that join, and resolves any
path that is not a root against the current directory.

Read back by `split_off_last_item`, a plain name joined onto such a base comes back as the
last item, unless the joined path holds both separators Windows accepts: `join` writes `\`,
and a `/` anywhere in front of it is taken for the last separator.
-/

namespace Zuban.Vfs

open Zuban.Path VfsHandler

variable {vfs : VfsHandler}

/-- With a `separator()` that is a separator of the platform, every separator the handler
accepts is one. -/
theorem isSepByte_of_accepts (separated : vfs.platform.isSepByte vfs.separator = true)
    {c : Char} (accepted : vfs.accepts c = true) : vfs.platform.isSepByte c = true := by
  rcases eq_of_accepts accepted with rfl | rfl
  · exact separated
  · by_cases same : vfs.separator = '/'
    · exact same ▸ separated
    · have windows : vfs.platform = .windows := by
        simpa [accepts, VfsHandler.windows, Ne.symm same] using accepted
      rw [windows]
      rfl

/-- `absolute_path` is `join` onto the current directory: `Path::join` of an absolute path is
that path. -/
theorem absolutePath_eq_join (currentDir path : List Char) :
    vfs.absolutePath currentDir path = vfs.join currentDir path := by
  unfold absolutePath
  split
  · rename_i absolute
    simp [VfsHandler.join, Path.join, push, absolute]
  · rfl

/-- The separator `unchecked_abs_path` strips from a path that is not a root cuts nothing off,
for a handler whose `separator()` is a separator of the platform; on Windows the path has a
prefix, and a verbatim one does not end with `/`, which it does not read as a separator. -/
theorem components_uncheckedAbsPath (separated : vfs.platform.isSepByte vfs.separator = true)
    {path : List Char}
    (windowsPrefixed : vfs.platform = .windows → (vfs.platform.parsePrefix path).isSome = true)
    (notRoot : isRoot vfs.platform path = false)
    (backslashed : prefixVerbatim vfs.platform path = true → path.getLast? ≠ some '/') :
    components vfs.platform (vfs.uncheckedAbsPath path) = components vfs.platform path := by
  rw [uncheckedAbsPath_eq]
  split
  · rename_i ends
    obtain ⟨c, last⟩ : ∃ c, path.getLast? = some c := by
      cases last : path.getLast? <;> simp_all [endsWithSeparator]
    have accepted : vfs.accepts c = true := by simpa [endsWithSeparator, last] using ends
    obtain ⟨front, rfl⟩ : ∃ front, path = front ++ [c] :=
      ⟨_, (List.dropLast_append_getLast? c last).symm⟩
    have isSepByte := isSepByte_of_accepts separated accepted
    have separator : isSep vfs.platform (front ++ [c]) c = true := by
      cases verbatim : prefixVerbatim vfs.platform (front ++ [c])
      · simp [isSep, verbatim, isSepByte]
      · have notSlash : c ≠ '/' := fun slash => backslashed verbatim (by simp [slash])
        cases platform : vfs.platform with
        | unix => simp [prefixVerbatim, platform, Platform.parsePrefix] at verbatim
        | windows =>
            rw [platform] at isSepByte verbatim
            simp_all [isSep, Windows.isVerbatimSep, Platform.isSepByte, Windows.isSepByte]
    rw [List.dropLast_concat]
    exact (components_concat_separator windowsPrefixed notRoot separator).symm
  · rfl

/-- `join` of a nonempty relative name onto an absolute base without a verbatim prefix, read
back: the base's components and then the name's, less a leading `.`; unless the base is a bare
device namespace. The separator `unchecked_abs_path` strips, if any, cuts nothing off, even
from a root base. -/
theorem components_join_relative (separated : vfs.platform.isSepByte vfs.separator = true)
    {base name : List Char} (absolute : isAbsolute vfs.platform base = true)
    (notVerbatim : prefixVerbatim vfs.platform base = false)
    (notDevice : vfs.platform.parsePrefix base ≠ some (.deviceNS []))
    (relative : Relative vfs.platform name) (nonempty : name ≠ []) :
    components vfs.platform (vfs.join base name) =
      components vfs.platform base ++ (components vfs.platform name).filter (· != .curDir) := by
  have law := components_join absolute notVerbatim notDevice relative
  rw [VfsHandler.join, uncheckedAbsPath_eq]
  split
  · rename_i ends
    rw [← law, Path.join]
    obtain ⟨extra, pushed, extraNonempty, cut⟩ :
        ∃ extra, push vfs.platform base name = base ++ extra ∧ extra ≠ [] ∧
          ((∃ front s, base = front ++ [s] ∧ vfs.platform.isSepByte s = true) ∨
            ∃ s rest, extra.dropLast = s :: rest ∧ vfs.platform.isSepByte s = true) := by
      rcases push_relative absolute notVerbatim relative with pushed | ⟨pushed, baseEnds⟩
      · obtain ⟨last, front, rfl⟩ := List.exists_cons_of_ne_nil nonempty
        exact ⟨_, pushed, List.cons_ne_nil _ _,
          .inr ⟨_, (last :: front).dropLast, rfl, Platform.isSepByte_mainSeparator _⟩⟩
      · exact ⟨name, pushed, nonempty, .inl baseEnds⟩
    obtain ⟨c, lastChar⟩ := Option.isSome_iff_exists.mp (List.getLast?_isSome.mpr extraNonempty)
    have separator : vfs.platform.isSepByte c = true := by
      rw [Path.join, pushed, endsWithSeparator, List.getLast?_append_of_ne_nil _ extraNonempty,
        lastChar] at ends
      exact isSepByte_of_accepts separated (by simpa using ends)
    have split : extra = extra.dropLast ++ [c] :=
      (List.dropLast_append_getLast? c lastChar).symm
    rw [pushed, List.dropLast_append_of_ne_nil _ extraNonempty]
    conv_rhs => rw [split]
    exact (components_append_concat absolute notVerbatim notDevice cut separator).symm
  · exact law

/-! ## `absolute_path` resolves a path against the current directory -/

/-- On Windows, the separator `unchecked_abs_path` strips from a rooted path joined after the
prefix of an absolute directory cuts nothing off, unless the path is a root. -/
theorem components_uncheckedAbsPath_join_rooted
    (separated : vfs.platform.isSepByte vfs.separator = true) {currentDir path : List Char}
    (windows : vfs.platform = .windows)
    (absolute : isAbsolute vfs.platform currentDir = true)
    (notVerbatim : prefixVerbatim vfs.platform currentDir = false)
    (prefixNone : vfs.platform.parsePrefix path = none) (rooted : hasRoot vfs.platform path = true)
    (notRoot : isRoot vfs.platform path = false) :
    components vfs.platform (vfs.uncheckedAbsPath (Path.join vfs.platform currentDir path)) =
      components vfs.platform (Path.join vfs.platform currentDir path) := by
  have prefixKept := parsePrefix_join_rooted notVerbatim prefixNone rooted
  have verbatimKept : prefixVerbatim vfs.platform (Path.join vfs.platform currentDir path) =
      prefixVerbatim vfs.platform currentDir := by
    simp only [prefixVerbatim, prefixKept]
  refine components_uncheckedAbsPath separated
    (fun _ => prefixKept ▸ parsePrefix_isSome absolute windows) ?_
    (fun verbatim => by simp [verbatimKept, notVerbatim] at verbatim)
  rw [isRoot, components_join_rooted notVerbatim prefixNone rooted, List.all_append, ← isRoot,
    notRoot, Bool.and_false]

/-- `join` and `absolute_path` read back as the path's components resolved against those of the
current directory: a path with a prefix stands alone, a rooted one keeps the directory's
prefix, any other goes on from the directory. For a handler whose `separator()` is a separator
of the platform, an absolute current directory without a verbatim prefix that is not a bare
device namespace, and a path that is not a root and, if verbatim, does not end with `/`: the
separator `unchecked_abs_path` strips cuts nothing off then. -/
theorem components_absolutePath (vfs : VfsHandler)
    (separated : vfs.platform.isSepByte vfs.separator = true) (currentDir path : List Char)
    (absolute : isAbsolute vfs.platform currentDir = true)
    (notVerbatim : prefixVerbatim vfs.platform currentDir = false)
    (notDevice : vfs.platform.parsePrefix currentDir ≠ some (.deviceNS []))
    (notRoot : isRoot vfs.platform path = false)
    (backslashed : prefixVerbatim vfs.platform path = true → path.getLast? ≠ some '/') :
    components vfs.platform (vfs.join currentDir path) =
        resolveComponents (components vfs.platform currentDir) (components vfs.platform path) ∧
      components vfs.platform (vfs.absolutePath currentDir path) =
        resolveComponents (components vfs.platform currentDir) (components vfs.platform path) := by
  rw [absolutePath_eq_join, and_self, ← components_join_resolve absolute notVerbatim notDevice,
    VfsHandler.join]
  have replaced :
      (isAbsolute vfs.platform path || (vfs.platform.parsePrefix path).isSome) = true →
      components vfs.platform (vfs.uncheckedAbsPath (Path.join vfs.platform currentDir path)) =
        components vfs.platform (Path.join vfs.platform currentDir path) := fun clear => by
    have written : Path.join vfs.platform currentDir path = path := by simp [Path.join, push, clear]
    rw [written]
    refine components_uncheckedAbsPath separated (fun windows => ?_) notRoot backslashed
    simp only [Bool.or_eq_true] at clear
    exact clear.elim (fun absolutePath => parsePrefix_isSome absolutePath windows) id
  cases prefixed : vfs.platform.parsePrefix path with
  | some p => exact replaced (by simp [prefixed])
  | none =>
      cases rooted : hasRoot vfs.platform path with
      | true =>
          obtain unix | windows : vfs.platform = .unix ∨ vfs.platform = .windows := by
            cases vfs.platform <;> simp
          · exact replaced (by simp only [isAbsolute, rooted]; simp [unix])
          · exact components_uncheckedAbsPath_join_rooted separated windows absolute notVerbatim
              prefixed rooted notRoot
      | false =>
          have nonempty : path ≠ [] := by
            rintro rfl
            exact absurd notRoot (by cases vfs.platform <;> decide)
          rw [← VfsHandler.join, components_join_relative separated absolute notVerbatim notDevice
            ⟨prefixed, rooted⟩ nonempty, components_join absolute notVerbatim notDevice
            ⟨prefixed, rooted⟩]

theorem components_absolutePath_rooted :
    components .windows ((native .windows).join "C:\\a".toList "\\b\\".toList) =
        resolveComponents (components .windows "C:\\a".toList)
          (components .windows "\\b\\".toList) ∧
      components .windows ((native .windows).absolutePath "C:\\a".toList "\\b\\".toList) =
        resolveComponents (components .windows "C:\\a".toList)
          (components .windows "\\b\\".toList) :=
  components_absolutePath (native .windows) (by decide) _ _ (by decide) (by decide) (by decide)
    (by decide) (by decide)

/-! ## `split_off_last_item` after `join` -/

/-- Two cuts of one text at accepted characters, with no accepted character after either,
are one cut. -/
theorem cut_unique {accepts : Char → Bool} {before after front name : List Char} {c s : Char}
    (cut : before ++ c :: after = front ++ s :: name) (acceptsC : accepts c = true)
    (acceptsS : accepts s = true) (freeAfter : ∀ x ∈ after, accepts x = false)
    (freeName : ∀ x ∈ name, accepts x = false) : before = front ∧ after = name := by
  rcases Nat.lt_trichotomy before.length front.length with shorter | same | longer
  · have later := (mem_of_cut_lt rfl cut shorter).2
    simp [freeAfter s later] at acceptsS
  · obtain ⟨rfl, rest⟩ := List.append_inj cut same
    exact ⟨rfl, (List.cons.inj rest).2⟩
  · have later := (mem_of_cut_lt rfl cut.symm longer).2
    simp [freeName c later] at acceptsC

/-- `split_off_last_item` gives back a plain name `join` wrote after an absolute base without
a verbatim prefix, exactly when the joined path does not hold both separators of a handler
that accepts two. -/
theorem splitOffLastItem_join (pf : Platform) (base name : List Char)
    (absolute : isAbsolute pf base = true) (notVerbatim : prefixVerbatim pf base = false)
    (plain : PlainName pf name) :
    ((native pf).splitOffLastItem ((native pf).join base name)).2 = name ↔
      ¬((native pf).mixedSeparators = true ∧ (native pf).separator ∈ (native pf).join base name ∧
        '/' ∈ (native pf).join base name) := by
  have free : ∀ x ∈ name, (native pf).accepts x = false := by
    simpa using plain.sepFree
  obtain ⟨front, s, split, isSep⟩ :
      ∃ front s, (native pf).join base name = front ++ s :: name ∧ pf.isSepByte s = true := by
    rcases join_name notVerbatim plain.notEmpty plain.sepFree plain.prefixNone with
      ⟨-, joined⟩ | ⟨needs, joined⟩
    · exact ⟨base, _, joined, pf.isSepByte_mainSeparator⟩
    · obtain ⟨front, s, rfl, isSep⟩ := needSep_false absolute needs
      exact ⟨front, s, by simp [joined], isSep⟩
  have acceptsS : (native pf).accepts s = true := by simpa using isSep
  constructor
  · rintro recovered ⟨mixed, hasSeparator, hasSlash⟩
    have windows : (native pf).windows = true := by simp_all [mixedSeparators]
    have distinct : (native pf).separator ≠ '/' := by simp_all [mixedSeparators]
    obtain ⟨i, found⟩ :=
      Option.ne_none_iff_exists'.mp (mt rfind_eq_none_iff.mp (not_not.mpr hasSeparator))
    obtain ⟨j, foundSlash⟩ :=
      Option.ne_none_iff_exists'.mp (mt rfind_eq_none_iff.mp (not_not.mpr hasSlash))
    rw [splitOffLastItem_of_found (lastFound_of_both windows found foundSlash)] at recovered
    obtain ⟨before, after, cut, rfl, -⟩ := rfind_eq_some_iff.mp found
    obtain ⟨before', after', cut', rfl, -⟩ := rfind_eq_some_iff.mp foundSlash
    have notAfter : ∀ {b a : List Char} {d : Char}, (native pf).join base name = b ++ d :: a →
        (native pf).accepts d = true → b.length ≤ front.length :=
      fun {b a d} cutD acceptsD => by
      by_contra longer
      have later := (mem_of_cut_lt split cutD (by omega)).2
      simp [free d later] at acceptsD
    have le := notAfter cut accepts_separator
    have le' := notAfter cut' (accepts_slash windows)
    have ne := ne_of_cut_ne cut cut' distinct
    have lengths := congrArg List.length recovered
    have total := congrArg List.length split
    simp only [List.length_drop, List.length_append, List.length_cons] at lengths total
    omega
  · intro notBoth
    have cutLast := lastSplit_of_not_both notBoth
    cases result : (native pf).splitOffLastItem ((native pf).join base name) with
    | mk first after =>
        rw [result] at cutLast
        cases first with
        | none =>
            obtain ⟨-, noSeparator⟩ := cutLast
            simp [noSeparator s (by simp [split])] at acceptsS
        | some before =>
            obtain ⟨c, acceptsC, cut, freeAfter⟩ := cutLast
            exact (cut_unique (cut.symm.trans split) acceptsC acceptsS freeAfter free).2

theorem splitOffLastItem_join_slashed_drive :
    ((native .windows).splitOffLastItem ((native .windows).join "C:/a".toList "n".toList)).2 =
        "n".toList ↔
      ¬((native .windows).mixedSeparators = true ∧
        (native .windows).separator ∈ (native .windows).join "C:/a".toList "n".toList ∧
        '/' ∈ (native .windows).join "C:/a".toList "n".toList) :=
  splitOffLastItem_join .windows _ _ (by decide) (by decide)
    ⟨by decide, by decide, by decide, by decide, by decide⟩

end Zuban.Vfs
