import Zuban.Path.Parent

/-!
# The front of a path

A path starts with its prefix and its root. Cutting the path behind them, or writing more
after them, leaves them as they are, and with them all that is read from them: the prefix
length, the separators, `has_root`, `is_absolute` and the length before the body.
-/

namespace Zuban.Path

/-- Two paths that read alike in front: one prefix and one physical root. -/
structure SameFront (pf : Platform) (path other : List Char) : Prop where
  prefixed : pf.parsePrefix other = pf.parsePrefix path
  physical : hasPhysicalRoot pf other = hasPhysicalRoot pf path

namespace SameFront

variable {pf : Platform} {path other : List Char} (same : SameFront pf path other)
include same

theorem prefixLen_eq : prefixLen pf other = prefixLen pf path := by
  simp [prefixLen, same.prefixed]

theorem prefixVerbatim_eq : prefixVerbatim pf other = prefixVerbatim pf path := by
  simp [prefixVerbatim, same.prefixed]

theorem isSep_eq : isSep pf other = isSep pf path := by
  funext c
  simp [isSep, same.prefixVerbatim_eq]

theorem hasRoot_eq : hasRoot pf other = hasRoot pf path := by
  simp [hasRoot, same.prefixed, same.physical]

theorem isAbsolute_eq : isAbsolute pf other = isAbsolute pf path := by
  simp [isAbsolute, same.prefixed, same.hasRoot_eq]

theorem lenBeforeBody_eq (rooted : hasRoot pf path = true) :
    lenBeforeBody pf other = lenBeforeBody pf path := by
  simp [lenBeforeBody, includeCurDir, rooted, same.hasRoot_eq, same.prefixLen_eq, same.physical]

theorem startDir_eq (rooted : hasRoot pf path = true) : startDir pf other = startDir pf path := by
  simp [startDir, includeCurDir, rooted, same.hasRoot_eq, same.prefixed, same.physical]

end SameFront

section Front

variable {pf : Platform} {path : List Char}

theorem prefixLen_congr {other : List Char} (same : pf.parsePrefix other = pf.parsePrefix path) :
    prefixLen pf other = prefixLen pf path := by
  simp only [prefixLen, same]

theorem hasPhysicalRoot_eq_head :
    hasPhysicalRoot pf path = (path.drop (prefixLen pf path)).head?.any pf.isSepByte := by
  unfold hasPhysicalRoot
  cases path.drop (prefixLen pf path) <;> rfl

theorem parsePrefix_isSome (absolute : isAbsolute pf path = true) (windows : pf = .windows) :
    (pf.parsePrefix path).isSome = true := by
  subst windows
  simp only [isAbsolute, Bool.and_eq_true] at absolute
  simpa using absolute.2

theorem prefixLen_le_lenBeforeBody : prefixLen pf path ≤ lenBeforeBody pf path := by
  unfold lenBeforeBody
  omega

/-- Cutting an absolute path behind its root leaves its front alone. -/
theorem sameFront_take (absolute : isAbsolute pf path = true) {n : Nat}
    (long : lenBeforeBody pf path ≤ n) : SameFront pf path (path.take n) := by
  have prefixed : pf.parsePrefix (path.take n) = pf.parsePrefix path := by
    cases pf with
    | unix => rfl
    | windows =>
        obtain ⟨p, parsed⟩ := Option.isSome_iff_exists.mp (parsePrefix_isSome absolute rfl)
        have : p.len ≤ n := by
          have := @prefixLen_le_lenBeforeBody .windows path
          simp only [prefixLen, parsed, Option.map_some', Option.getD_some] at this
          omega
        exact (Windows.parsePrefix_take parsed this).trans parsed.symm
  refine ⟨prefixed, ?_⟩
  have lengths : prefixLen pf (path.take n) = prefixLen pf path := by simp [prefixLen, prefixed]
  rw [hasPhysicalRoot_eq_head, hasPhysicalRoot_eq_head, lengths, List.drop_take]
  by_cases phys : hasPhysicalRoot pf path
  · have : prefixLen pf path < n := by
      have := @prefixLen_le_lenBeforeBody pf path
      simp only [lenBeforeBody, phys, if_true] at long
      omega
    rw [List.head?_take, if_neg (by omega)]
  · rw [List.head?_take]
    split
    · rw [hasPhysicalRoot_eq_head] at phys
      simpa using phys
    · rfl

/-- Writing more behind the root of an absolute path leaves its front alone; without a
verbatim prefix. -/
theorem sameFront_append (absolute : isAbsolute pf path = true)
    (notVerbatim : prefixVerbatim pf path = false) (body : path.drop (prefixLen pf path) ≠ [])
    (rest : List Char) : SameFront pf path (path ++ rest) := by
  have prefixed : pf.parsePrefix (path ++ rest) = pf.parsePrefix path := by
    cases pf with
    | unix => rfl
    | windows =>
        obtain ⟨p, parsed⟩ := Option.isSome_iff_exists.mp (parsePrefix_isSome absolute rfl)
        have verbatim : p.isVerbatim = false := by simpa [prefixVerbatim, parsed] using notVerbatim
        have lengths : prefixLen .windows path = p.len := by simp [prefixLen, parsed]
        rw [lengths] at body
        rw [parsed, ← List.take_append_drop p.len path, List.append_assoc]
        refine Windows.parsePrefix_take_append parsed verbatim ?_
        cases drive : p.isDrive
        · obtain ⟨c, tail, split⟩ := List.exists_cons_of_ne_nil body
          have boundary := Windows.parsePrefix_boundary parsed verbatim drive
          rw [split] at boundary ⊢
          exact .inr boundary
        · exact .inl rfl
  refine ⟨prefixed, ?_⟩
  have lengths : prefixLen pf (path ++ rest) = prefixLen pf path := by simp [prefixLen, prefixed]
  rw [hasPhysicalRoot_eq_head, hasPhysicalRoot_eq_head, lengths,
    List.drop_append_of_le_length (Nat.le_of_lt (by simpa using body))]
  obtain ⟨c, tail, split⟩ := List.exists_cons_of_ne_nil body
  simp [split]

/-- The prefix of an absolute path, followed by a separator or nothing, is still that prefix;
without a verbatim prefix. -/
theorem parsePrefix_front_append (absolute : isAbsolute pf path = true)
    (notVerbatim : prefixVerbatim pf path = false) {rest : List Char}
    (boundary : Windows.Boundary rest = true) :
    pf.parsePrefix (path.take (prefixLen pf path) ++ rest) = pf.parsePrefix path := by
  cases pf with
  | unix => rfl
  | windows =>
      obtain ⟨p, parsed⟩ := Option.isSome_iff_exists.mp (parsePrefix_isSome absolute rfl)
      have verbatim : p.isVerbatim = false := by simpa [prefixVerbatim, parsed] using notVerbatim
      simp only [prefixLen, parsed, Option.map_some', Option.getD_some]
      exact Windows.parsePrefix_take_append parsed verbatim (.inr boundary)

theorem hasRoot_of_isAbsolute (absolute : isAbsolute pf path = true) : hasRoot pf path = true := by
  simp only [isAbsolute, Bool.and_eq_true] at absolute
  exact absolute.1

theorem startDir_ne_curDir (rooted : hasRoot pf path = true) :
    (startDir pf path).1 ≠ some .curDir := by
  have noCur : includeCurDir pf path = false := by simp [includeCurDir, rooted]
  unfold startDir
  split
  · simp
  · split <;> simp [noCur]

/-- Past the root of an absolute path that is not a root there is a body. -/
theorem lenBeforeBody_lt_length (absolute : isAbsolute pf path = true)
    (notRoot : isRoot pf path = false) : lenBeforeBody pf path < path.length := by
  by_contra short
  have empty : path.drop (lenBeforeBody pf path) = [] := List.drop_eq_nil_of_le (by omega)
  have root : isRoot pf path = true := (isRoot_iff pf path).mpr
    ⟨startDir_ne_curDir (hasRoot_of_isAbsolute absolute), by rw [empty, bodyComponents_nil]⟩
  simp [root] at notRoot

theorem prefixLen_le_length (notVerbatim : prefixVerbatim pf path = false) :
    prefixLen pf path ≤ path.length := by
  cases prefixed : pf.parsePrefix path with
  | none => simp [prefixLen, prefixed]
  | some p =>
      cases pf with
      | unix => cases prefixed
      | windows =>
          have verbatim : p.isVerbatim = false := by
            simpa [prefixVerbatim, prefixed] using notVerbatim
          simpa [prefixLen, prefixed] using Windows.parsePrefix_len_le prefixed verbatim

/-- The prefix of an absolute path followed by a separator: the same prefix, and a physical
root; without a verbatim prefix. -/
theorem front_append (absolute : isAbsolute pf path = true)
    (notVerbatim : prefixVerbatim pf path = false) {rest : List Char}
    (sepHead : rest.head?.any pf.isSepByte = true) :
    pf.parsePrefix (path.take (prefixLen pf path) ++ rest) = pf.parsePrefix path ∧
      hasPhysicalRoot pf (path.take (prefixLen pf path) ++ rest) = true := by
  have boundary : Windows.Boundary rest = true := by
    cases pf <;> cases rest <;> simp_all [Windows.Boundary, Platform.isSepByte, Windows.isSepByte]
  have prefixed := parsePrefix_front_append absolute notVerbatim boundary
  refine ⟨prefixed, ?_⟩
  rw [hasPhysicalRoot_eq_head, prefixLen_congr prefixed, List.drop_left' (by
    simp [Nat.min_eq_left (prefixLen_le_length notVerbatim)])]
  exact sepHead

end Front

/-! ## The parent of an absolute path -/

/-- `Path::parent` of an absolute path is `None` exactly on a root, and otherwise leaves out
its last component and nothing else. -/
theorem parent_components (pf : Platform) (path : List Char)
    (absolute : isAbsolute pf path = true) :
    (parent pf path = none ↔ isRoot pf path = true) ∧
      ∀ outer, parent pf path = some outer →
        components pf outer = (components pf path).dropLast := by
  refine ⟨parent_eq_none_iff pf path, fun outer parented => ?_⟩
  have rooted := hasRoot_of_isAbsolute absolute
  cases taken : nextBackBody (isSep pf path) (prefixVerbatim pf path)
      (path.drop (lenBeforeBody pf path)) with
  | none =>
      have root : isRoot pf path = true := (isRoot_iff pf path).mpr
        ⟨startDir_ne_curDir rooted, nextBackBody_eq_none_iff.mp taken⟩
      simp [(parent_eq_none_iff pf path).mpr root] at parented
  | some taken' =>
      obtain ⟨c, rest⟩ := taken'
      rw [parent_of_nextBackBody pf path taken, Option.some.injEq] at parented
      subst parented
      obtain ⟨restPrefix, shorter⟩ := nextBackBody_eq_some taken
      obtain ⟨after, split⟩ :=
        (@trimRight_isPrefix (isSep pf path) (prefixVerbatim pf path) rest).trans restPrefix
      have long : lenBeforeBody pf path ≤ path.length := by
        simp only [List.length_drop] at shorter
        omega
      have outerTake : path.take (lenBeforeBody pf path) ++
          trimRight (isSep pf path) (prefixVerbatim pf path) rest =
            path.take (lenBeforeBody pf path +
              (trimRight (isSep pf path) (prefixVerbatim pf path) rest).length) := by
        rw [List.take_add, ← split, List.take_left]
      have same := sameFront_take absolute (Nat.le_add_right (lenBeforeBody pf path)
        (trimRight (isSep pf path) (prefixVerbatim pf path) rest).length)
      rw [outerTake, components_eq_back pf, same.lenBeforeBody_eq rooted, same.startDir_eq rooted,
        same.prefixed, same.isSep_eq, same.prefixVerbatim_eq, ← outerTake,
        List.drop_left' (by simp; omega), trimRight_components, components_eq_back pf path,
        nextBackBody_components taken, ← List.append_assoc, List.dropLast_concat]

/-- On Windows the drive prefix and the root stay when `C:\a\b` loses its last component. -/
theorem parent_components_drive :
    isAbsolute .windows "C:\\a\\b".toList = true ∧
      components .windows "C:\\a".toList = (components .windows "C:\\a\\b".toList).dropLast :=
  ⟨by decide, (parent_components .windows _ (by decide)).2 _ (by decide)⟩

end Zuban.Path
