import Zuban.Vfs.AbsPath

/-!
# The parent of a joined name

`parent_of_absolute_path(join(d, n))` gives `d` back when `n` is one plain name: `join` writes
a separator and `n` after `d`, and `Path::parent` cuts them off again, together with any empty
and `.` pieces in front of them. So `d` must not end with a separator or a `.` piece, and a root
must be its prefix and exactly one separator. A verbatim `d` is rebuilt from its components by
`join`, which drops an empty piece: it comes back when it is written as the rebuild writes it,
and a UNC share has a share name, which `n` would otherwise become.
-/

namespace Zuban.Vfs

open Zuban.Path VfsHandler

/-- Whether the last piece of a path is `.`. -/
def endsWithDot (pf : Platform) (path : List Char) : Bool :=
  match path.reverse with
  | '.' :: rest => rest.head?.all pf.isSepByte
  | _ => false

theorem parseSingleComponent_isSome {piece : List Char} (notEmpty : piece ≠ [])
    (notDot : piece ≠ ['.']) : (parseSingleComponent false piece).isSome = true := by
  unfold parseSingleComponent
  split <;> simp_all

theorem isSep_of_notVerbatim {pf : Platform} {path : List Char}
    (notVerbatim : prefixVerbatim pf path = false) : isSep pf path = pf.isSepByte := by
  funext c
  simp [isSep, notVerbatim]

section Join

variable {pf : Platform} {base : List Char}

theorem needSep_of_last (absolute : isAbsolute pf base = true) {c : Char}
    (last : base.getLast? = some c) (free : pf.isSepByte c = false) : needSep pf base = true := by
  unfold needSep
  split
  · rename_i bare
    obtain ⟨-, whole, drive⟩ := bare
    have noPhys : hasPhysicalRoot pf base = false := by
      rw [hasPhysicalRoot_eq_head, whole, List.drop_length]
      rfl
    have rooted := hasRoot_of_isAbsolute absolute
    cases prefixed : pf.parsePrefix base <;> simp_all [hasRoot, Prefix.hasImplicitRoot]
  · simp [last, free]

theorem needSep_of_last_sep {c : Char} (last : base.getLast? = some c)
    (isSep : pf.isSepByte c = true) : needSep pf base = false := by
  unfold needSep
  split
  · rfl
  · simp [last, isSep]

/-- `Path::parent` cuts a name written after a body that it keeps whole. -/
theorem parent_append (absolute : isAbsolute pf base = true)
    (notVerbatim : prefixVerbatim pf base = false)
    (body : base.drop (prefixLen pf base) ≠ []) (long : lenBeforeBody pf base ≤ base.length)
    {rest name : List Char}
    (taken : nextBackBody pf.isSepByte false (base.drop (lenBeforeBody pf base) ++ rest) =
      some (.normal name, base.drop (lenBeforeBody pf base)))
    (kept : trimRight pf.isSepByte false (base.drop (lenBeforeBody pf base)) =
      base.drop (lenBeforeBody pf base)) :
    parent pf (base ++ rest) = some base := by
  have same := sameFront_append absolute notVerbatim body rest
  have lengths := same.lenBeforeBody_eq (hasRoot_of_isAbsolute absolute)
  have separators : isSep pf (base ++ rest) = pf.isSepByte := by
    rw [same.isSep_eq, isSep_of_notVerbatim notVerbatim]
  have verbatim : prefixVerbatim pf (base ++ rest) = false :=
    same.prefixVerbatim_eq.trans notVerbatim
  rw [parent_of_nextBackBody pf (base ++ rest) (by
      rw [lengths, separators, verbatim, List.drop_append_of_le_length long]
      exact taken),
    lengths, separators, verbatim, kept, List.take_append_of_le_length long,
    List.take_append_drop]

/-- The body of a base that is no root, ends with no separator and not with `.`, keeps its last
piece under the trimming of `Path::parent`. -/
theorem trimRight_body (absolute : isAbsolute pf base = true)
    (notVerbatim : prefixVerbatim pf base = false) (notRoot : isRoot pf base = false)
    (noSep : (native pf).endsWithSeparator base = false) (noDot : endsWithDot pf base = false) :
    trimRight pf.isSepByte false (base.drop (lenBeforeBody pf base)) =
      base.drop (lenBeforeBody pf base) := by
  have whole := List.take_append_drop (lenBeforeBody pf base) base
  rcases lastPiece_split pf.isSepByte (base.drop (lenBeforeBody pf base)) with
    free | ⟨front, s, piece, split, isSep, free⟩
  · refine trimRight_piece free (parseSingleComponent_isSome ?_ ?_)
    · have := lenBeforeBody_lt_length absolute notRoot
      simpa using this
    · intro dot
      have root : isRoot pf base = true := (isRoot_iff pf base).mpr
        ⟨startDir_ne_curDir (hasRoot_of_isAbsolute absolute), by
          rw [dot, notVerbatim, bodyComponents_dot_cons (isSep_dot pf base) (.inl rfl)]; rfl⟩
      simp [root] at notRoot
  · rw [split] at whole ⊢
    refine trimRight_append_piece isSep free (parseSingleComponent_isSome ?_ ?_)
    · rintro rfl
      rw [← whole] at noSep
      simp [endsWithSeparator, isSep] at noSep
    · rintro rfl
      rw [← whole] at noDot
      simp [endsWithDot, isSep] at noDot

end Join

/-- `join` writes a plain name after the base, and stripping a separator leaves it alone. -/
theorem join_name {pf : Platform} {base name : List Char}
    (notVerbatim : prefixVerbatim pf base = false) (notEmpty : name ≠ [])
    (free : ∀ c ∈ name, pf.isSepByte c = false) (prefixNone : pf.parsePrefix name = none) :
    (needSep pf base = true ∧ (native pf).join base name = base ++ pf.mainSeparator :: name) ∨
      (needSep pf base = false ∧ (native pf).join base name = base ++ name) := by
  have relative : hasRoot pf name = false := by
    rw [← head_isSepByte_of_noPrefix prefixNone]
    cases name with
    | nil => contradiction
    | cons c rest => simp [free c (by simp)]
  have kept : ∀ front, (native pf).uncheckedAbsPath (front ++ name) = front ++ name := by
    intro front
    obtain ⟨c, last⟩ := List.getLast?_isSome.mpr notEmpty |> Option.isSome_iff_exists.mp
    rw [uncheckedAbsPath_eq, endsWithSeparator_append front notEmpty]
    simp [endsWithSeparator, last, free c (List.mem_of_getLast?_eq_some last)]
  show (needSep pf base = true ∧ (native pf).uncheckedAbsPath (push pf base name) = _) ∨
    (needSep pf base = false ∧ (native pf).uncheckedAbsPath (push pf base name) = _)
  rcases push_of_notVerbatim notVerbatim name with
    ⟨-, named | prefixed⟩ | ⟨-, -, rooted, -⟩ |
      ⟨-, -, -, ⟨needs, joined⟩ | ⟨needs, joined⟩⟩
  · simp [isAbsolute, relative] at named
  · simp [prefixNone] at prefixed
  · simp [relative] at rooted
  · exact .inl ⟨needs, by rw [joined, ← List.singleton_append, ← List.append_assoc, kept,
      List.append_assoc, List.singleton_append]⟩
  · exact .inr ⟨needs, by rw [joined, kept]⟩

/-- A root that is its prefix and one separator ends with that separator and holds no body. -/
theorem canonicalRoot {pf : Platform} {base : List Char} (absolute : isAbsolute pf base = true)
    (notVerbatim : prefixVerbatim pf base = false) (physical : hasPhysicalRoot pf base = true)
    (canonical : base.length = prefixLen pf base + 1) :
    ∃ s, base.drop (prefixLen pf base) = [s] ∧ pf.isSepByte s = true ∧
      lenBeforeBody pf base = base.length := by
  have short := prefixLen_le_length notVerbatim
  obtain ⟨s, single⟩ : ∃ s, base.drop (prefixLen pf base) = [s] :=
    List.length_eq_one.mp (by simp; omega)
  have isSep : pf.isSepByte s = true := by
    rw [hasPhysicalRoot_eq_head, single] at physical
    simpa using physical
  refine ⟨s, single, isSep, ?_⟩
  simp [lenBeforeBody, physical, includeCurDir, hasRoot_of_isAbsolute absolute, canonical]

/-- `Path::parent` undoes a join of one plain name onto an `AbsPath` without a verbatim prefix
that does not end with a `.` piece and, when a root, is its prefix and one separator. -/
theorem parent_join_of_notVerbatim {pf : Platform} {base name : List Char}
    (valid : (native pf).isAbsPath base = true) (notVerbatim : prefixVerbatim pf base = false)
    (noDot : endsWithDot pf base = false)
    (canonical : isRoot pf base = true →
      hasPhysicalRoot pf base = true ∧ base.length = prefixLen pf base + 1)
    (plain : PlainName pf name) : parent pf ((native pf).join base name) = some base := by
  obtain ⟨absolute, shape⟩ : isAbsolute pf base = true ∧ _ := isAbsPath_iff.mp valid
  have normal : parseSingleComponent false name = some (.normal name) :=
    parseSingleComponent_of_normal plain.notEmpty plain.notDot plain.notDots
  by_cases root : isRoot pf base = true
  · obtain ⟨physical, length⟩ := canonical root
    obtain ⟨s, single, isSep, lengths⟩ := canonicalRoot absolute notVerbatim physical length
    have last : base.getLast? = some s := by
      rw [← List.take_append_drop (prefixLen pf base) base, single]; simp
    have empty : base.drop (lenBeforeBody pf base) = [] := by simp [lengths]
    rcases join_name notVerbatim plain.notEmpty plain.sepFree plain.prefixNone with
      ⟨needs, -⟩ | ⟨-, joined⟩
    · simp [needSep_of_last_sep last isSep] at needs
    · rw [joined]
      exact parent_append absolute notVerbatim (by simp [single]) lengths.le
        (by rw [empty]; exact nextBackBody_name plain.sepFree normal) (by rw [empty]; rfl)
  · simp only [Bool.not_eq_true] at root
    have noSep := shape.resolve_left (by simp [root])
    have long := lenBeforeBody_lt_length absolute root
    obtain ⟨c, last⟩ : ∃ c, base.getLast? = some c :=
      Option.isSome_iff_exists.mp (List.getLast?_isSome.mpr (List.ne_nil_of_length_pos (by omega)))
    have cFree : pf.isSepByte c = false := by simpa [endsWithSeparator, last] using noSep
    rcases join_name notVerbatim plain.notEmpty plain.sepFree plain.prefixNone with
      ⟨-, joined⟩ | ⟨needs, -⟩
    · rw [joined]
      exact parent_append absolute notVerbatim
        (fun empty => by
          have := List.drop_eq_nil_iff.mp empty
          have : prefixLen pf base ≤ lenBeforeBody pf base := prefixLen_le_lenBeforeBody
          omega)
        long.le
        (nextBackBody_append_name (Platform.isSepByte_mainSeparator pf) plain.sepFree normal)
        (trimRight_body absolute notVerbatim root noSep noDot)
    · simp [needSep_of_last absolute last cFree] at needs

/-- `join` writes a plain name after a verbatim base with its root written out that is written
as the rebuild writes it: behind a backslash, unless the base is its prefix and root; and the
body behind the root does not end with a backslash. -/
theorem join_verbatim_name {base body name : List Char} {p : Prefix}
    (parsed : Windows.parsePrefix base = some p) (verbatim : p.isVerbatim = true)
    (rooted : base.drop p.len = '\\' :: body)
    (written : renderComponents .windows (base.take p.len) false (components .windows base) = base)
    (plain : PlainName .windows name) :
    (native .windows).join base name = base ++ (if body.isEmpty then [] else ['\\']) ++ name ∧
      (body = [] ∨ ∃ x, body.getLast? = some x ∧ x ≠ '\\') := by
  have whole : base = base.take p.len ++ '\\' :: body := by rw [← rooted, List.take_append_drop]
  have comps := components_verbatim_rooted parsed verbatim (by rw [rooted]; rfl)
  rw [← List.drop_drop, rooted, List.drop_one, List.tail_cons] at comps
  have keep : ∀ c ∈ bodyComponents Windows.isVerbatimSep true body, c.rebuildable = true :=
    fun c member => rebuildable_of_mem_bodyComponents rfl member
  have rootedRender : ∀ rest, renderComponents .windows (base.take p.len) false
      (.prefixComponent p :: .rootDir :: rest) =
        base.take p.len ++ '\\' :: renderComponents .windows (base.take p.len) false rest :=
    fun rest => by
      simpa [verbatimStack] using
        @renderComponents_verbatimStack (base.take p.len) p verbatim true rest
  have rendered : renderComponents .windows (base.take p.len) false
      (bodyComponents Windows.isVerbatimSep true body) = body := by
    rw [comps, rootedRender] at written
    conv_rhs at written => rw [whole]
    simpa using written
  have separated : (false || !(bodyComponents Windows.isVerbatimSep true body).isEmpty) =
      !body.isEmpty := by
    rcases @renderComponents_ends .windows (base.take p.len) false _ keep with
      ⟨none, -⟩ | ⟨some, x, last, -⟩
    · rw [none, ← rendered, none]
      rfl
    · have nonempty : body ≠ [] := by
        rintro rfl
        simp at some
      cases parts : bodyComponents Windows.isVerbatimSep true body
      · exact absurd parts some
      · cases body
        · exact absurd rfl nonempty
        · rfl
  have pushed : Path.join .windows base name =
      base ++ (if body.isEmpty then [] else ['\\']) ++ name := by
    have named : (isAbsolute .windows name || (Platform.windows.parsePrefix name).isSome) = false :=
      by simp [plain.isAbsolute_eq, plain.prefixNone]
    have rebuilt : (prefixVerbatim .windows base && !name.isEmpty) = true := by
      simp [prefixVerbatim, Platform.parsePrefix, parsed, verbatim, plain.notEmpty]
    rw [Path.join, push, if_neg (by simp [named]), if_pos rebuilt, plain.components_eq, comps]
    simp only [prefixLen, Platform.parsePrefix, parsed, Option.map_some', Option.getD_some]
    rw [show pushVerbatimComponents (.prefixComponent p :: .rootDir ::
        bodyComponents Windows.isVerbatimSep true body) [.normal name] =
        .prefixComponent p :: .rootDir ::
          (bodyComponents Windows.isVerbatimSep true body ++ [.normal name]) by
        simp [pushVerbatimComponents],
      rootedRender, renderComponents_append_name keep, rendered, separated]
    conv_rhs => rw [whole]
    cases body.isEmpty <;> simp [Platform.mainSeparator]
  refine ⟨?_, ?_⟩
  · obtain ⟨c, last⟩ : ∃ c, name.getLast? = some c :=
      Option.ne_none_iff_exists'.mp (mt List.getLast?_eq_none_iff.mp plain.notEmpty)
    rw [VfsHandler.join, native_platform, pushed, uncheckedAbsPath_eq,
      endsWithSeparator_append _ plain.notEmpty]
    simp [endsWithSeparator, last, plain.sepFree c (List.mem_of_getLast?_eq_some last)]
  · rcases @renderComponents_ends .windows (base.take p.len) false _ keep with
      ⟨-, empty⟩ | ⟨-, x, last, notSep⟩
    · exact .inl (rendered ▸ empty)
    · exact .inr ⟨x, rendered ▸ last, notSep⟩

/-- `Path::parent` undoes a join of one plain name onto a verbatim path that is written as the
rebuild writes it, is not a UNC share without a share name and, when a root, has its root
written out. -/
theorem parent_join_verbatim {base name : List Char}
    (verbatim : prefixVerbatim .windows base = true)
    (named : ∀ server, Platform.windows.parsePrefix base ≠ some (.verbatimUNC server []))
    (written : renderComponents .windows (base.take (prefixLen .windows base)) false
      (components .windows base) = base)
    (canonical : isRoot .windows base = true →
      hasPhysicalRoot .windows base = true ∧ base.length = prefixLen .windows base + 1)
    (plain : PlainName .windows name) :
    parent .windows ((native .windows).join base name) = some base := by
  obtain ⟨-, p, parsed, pVerbatim⟩ := exists_verbatim_of_prefixVerbatim verbatim
  have prefixLength : prefixLen .windows base = p.len := by
    simp [prefixLen, Platform.parsePrefix, parsed]
  rw [prefixLength] at written canonical
  obtain ⟨body, rooted⟩ : ∃ body, base.drop p.len = '\\' :: body := by
    have next := (Windows.parsePrefix_verbatim_next parsed pVerbatim).2
    cases after : base.drop p.len with
    | nil =>
        have bare : hasPhysicalRoot .windows base = false := by
          rw [hasPhysicalRoot_eq_head, prefixLength, after]
          rfl
        have root : isRoot .windows base = true := by
          simp [isRoot, components_verbatim parsed pVerbatim, bare, after, Component.isRootPart]
        simp [bare, root] at canonical
    | cons c body =>
        rw [after] at next
        obtain rfl : c = '\\' := by simpa [Windows.isVerbatimSep] using next
        exact ⟨body, rfl⟩
  obtain ⟨joined, ends⟩ := join_verbatim_name parsed pVerbatim rooted written plain
  rw [joined]
  exact parent_verbatim_append_name parsed pVerbatim
    (fun server same => named server (by simp [Platform.parsePrefix, parsed, same])) rooted ends
    plain

/-- `parent_of_absolute_path` undoes a join of one plain name onto an `AbsPath` that does not
end with a `.` piece and, when a root, is its prefix and one separator; a verbatim one must be
written as the rebuild of `join` writes it, and a UNC share have a share name. It gives
nothing exactly on a root. -/
theorem parentOfAbsolutePath_join (pf : Platform) :
    (∀ base name, (native pf).isAbsPath base = true →
      (prefixVerbatim pf base = true →
        (∀ server, pf.parsePrefix base ≠ some (.verbatimUNC server [])) ∧
          renderComponents pf (base.take (prefixLen pf base)) false (components pf base) = base) →
      endsWithDot pf base = false →
      (isRoot pf base = true → hasPhysicalRoot pf base = true ∧
        base.length = prefixLen pf base + 1) →
      name ≠ [] → (∀ c ∈ name, (native pf).accepts c = false) → name ≠ ['.'] →
      name ≠ ['.', '.'] → pf.parsePrefix name = none →
      (native pf).parentOfAbsolutePath ((native pf).join base name) = some base) ∧
    ∀ path, (native pf).parentOfAbsolutePath path = none ↔ isRoot pf path = true := by
  refine ⟨fun base name valid rebuilt noDot canonical notEmpty free notDot notDots prefixNone
    => ?_, fun path => parent_eq_none_iff pf path⟩
  simp only [native_accepts] at free
  have plain : PlainName pf name := ⟨notEmpty, free, notDot, notDots, prefixNone⟩
  show parent pf _ = some base
  cases verbatim : prefixVerbatim pf base
  · exact parent_join_of_notVerbatim valid verbatim noDot canonical plain
  · obtain ⟨rfl, -⟩ := exists_verbatim_of_prefixVerbatim verbatim
    obtain ⟨named, written⟩ := rebuilt verbatim
    exact parent_join_verbatim verbatim named written canonical plain

theorem parentOfAbsolutePath_join_dirs :
    (native .unix).parentOfAbsolutePath ((native .unix).join "/a/..".toList "n".toList) =
        some "/a/..".toList ∧
      (native .windows).parentOfAbsolutePath
        ((native .windows).join "C:\\".toList "n".toList) = some "C:\\".toList ∧
      (native .windows).parentOfAbsolutePath
        ((native .windows).join "\\\\?\\C:\\a\\b/c".toList "n".toList) =
          some "\\\\?\\C:\\a\\b/c".toList :=
  ⟨(parentOfAbsolutePath_join .unix).1 _ _ (by decide)
      (fun verbatim => absurd verbatim (by decide)) (by decide) (by decide) (by decide)
      (by decide) (by decide) (by decide) (by decide),
    (parentOfAbsolutePath_join .windows).1 _ _ (by decide)
      (fun verbatim => absurd verbatim (by decide)) (by decide) (by decide) (by decide)
      (by decide) (by decide) (by decide) (by decide),
    (parentOfAbsolutePath_join .windows).1 _ _ (by decide)
      (fun _ => ⟨fun server => by
        rw [show Platform.windows.parsePrefix "\\\\?\\C:\\a\\b/c".toList =
          some (.verbatimDisk 'C') by decide]
        simp, by decide⟩)
      (by decide) (by decide) (by decide) (by decide) (by decide) (by decide) (by decide)⟩

/-- A root written with two separators, a UNC root without its separator, a verbatim base with
a doubled separator, and a verbatim UNC share without a share name do not come back. -/
theorem parentOfAbsolutePath_join_fail :
    ((native .unix).isAbsPath "//".toList = true ∧
      (native .unix).parentOfAbsolutePath ((native .unix).join "//".toList "n".toList) =
        some "/".toList) ∧
    ((native .windows).isAbsPath "\\\\s\\sh".toList = true ∧
      (native .windows).parentOfAbsolutePath
        ((native .windows).join "\\\\s\\sh".toList "n".toList) =
          some "\\\\s\\sh\\".toList) ∧
    ((native .windows).isAbsPath "\\\\?\\C:\\a\\\\b".toList = true ∧
      (native .windows).parentOfAbsolutePath
        ((native .windows).join "\\\\?\\C:\\a\\\\b".toList "n".toList) =
          some "\\\\?\\C:\\a\\b".toList) ∧
    ((native .windows).isAbsPath "\\\\?\\UNC\\s\\".toList = true ∧
      renderComponents .windows ("\\\\?\\UNC\\s\\".toList.take
          (prefixLen .windows "\\\\?\\UNC\\s\\".toList)) false
        (components .windows "\\\\?\\UNC\\s\\".toList) = "\\\\?\\UNC\\s\\".toList ∧
      (native .windows).parentOfAbsolutePath
        ((native .windows).join "\\\\?\\UNC\\s\\".toList "n".toList) = none) := by
  decide

end Zuban.Vfs
