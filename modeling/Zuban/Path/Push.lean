import Zuban.Path.Front

/-!
# Joining paths

`Path::join` runs `PathBuf::push` on a copy of the base. An absolute or prefixed path
replaces the base. A verbatim base is rebuilt from its components, since `.` and `..` mean
nothing literal there. A rooted path keeps only the base's prefix. Otherwise a separator goes
in between, unless the base already ends with one or is a bare drive.
-/

namespace Zuban.Path

/-- `Component::as_os_str`; `prefixText` stands for a prefix component's raw bytes. -/
def Component.asOsStr (pf : Platform) (prefixText : List Char) : Component → List Char
  | .prefixComponent _ => prefixText
  | .rootDir => [pf.mainSeparator]
  | .curDir => ['.']
  | .parentDir => ['.', '.']
  | .normal name => name

/-- The loop over `path.components()` in the verbatim case of `PathBuf::push`. -/
def pushVerbatimComponents : List Component → List Component → List Component
  | buf, [] => buf
  | buf, .rootDir :: rest => pushVerbatimComponents (buf.take 1 ++ [.rootDir]) rest
  | buf, .curDir :: rest => pushVerbatimComponents buf rest
  | buf, .parentDir :: rest =>
      pushVerbatimComponents
        (match buf.getLast? with
          | some (.normal _) => buf.dropLast
          | _ => buf) rest
  | buf, c :: rest => pushVerbatimComponents (buf ++ [c]) rest

/-- The loop that writes the rebuilt verbatim path out again. -/
def renderComponents (pf : Platform) (prefixText : List Char) :
    Bool → List Component → List Char
  | _, [] => []
  | needSep, c :: rest =>
      (if needSep && c != .rootDir then [pf.mainSeparator] else []) ++
        c.asOsStr pf prefixText ++
        renderComponents pf prefixText
          (match c with
            | .rootDir => false
            | .prefixComponent p => !p.isDrive && 0 < p.len
            | _ => true) rest

/-- The `need_sep` of `PathBuf::push`: a separator goes in unless the buffer ends with one or
is a bare drive. -/
def needSep (pf : Platform) (base : List Char) : Bool :=
  if 0 < prefixLen pf base ∧ prefixLen pf base = base.length ∧
      ((pf.parsePrefix base).map Prefix.isDrive).getD false then false
  else match base.getLast? with
    | some c => !pf.isSepByte c
    | none => false

/-- `PathBuf::push` on a buffer holding `base`. -/
def push (pf : Platform) (base path : List Char) : List Char :=
  if isAbsolute pf path || (pf.parsePrefix path).isSome then path
  else if prefixVerbatim pf base && !path.isEmpty then
    renderComponents pf (base.take (prefixLen pf base)) false
      (pushVerbatimComponents (components pf base) (components pf path))
  else if hasRoot pf path then base.take (prefixLen pf base) ++ path
  else if needSep pf base then base ++ pf.mainSeparator :: path
  else base ++ path

/-- `Path::join`. -/
def join (pf : Platform) (base path : List Char) : List Char := push pf base path

section Push

variable {pf : Platform} {base : List Char}

/-- What `push` does to a buffer without a verbatim prefix. -/
theorem push_of_notVerbatim (notVerbatim : prefixVerbatim pf base = false) (path : List Char) :
    (push pf base path = path ∧
      (isAbsolute pf path = true ∨ (pf.parsePrefix path).isSome = true)) ∨
    (pf.parsePrefix path = none ∧ isAbsolute pf path = false ∧ hasRoot pf path = true ∧
      push pf base path = base.take (prefixLen pf base) ++ path) ∨
    (pf.parsePrefix path = none ∧ isAbsolute pf path = false ∧ hasRoot pf path = false ∧
      (needSep pf base = true ∧ push pf base path = base ++ pf.mainSeparator :: path ∨
        needSep pf base = false ∧ push pf base path = base ++ path)) := by
  unfold push
  by_cases clear : (isAbsolute pf path || (pf.parsePrefix path).isSome) = true
  · simp only [Bool.or_eq_true] at clear
    simp [clear]
  · have relative : isAbsolute pf path = false := by simp_all
    have prefixNone : pf.parsePrefix path = none := by
      cases prefixed : pf.parsePrefix path <;> simp_all
    simp only [relative, prefixNone, Option.isSome_none, Bool.or_self, Bool.false_eq_true, if_false,
      notVerbatim, Bool.false_and]
    cases rooted : hasRoot pf path <;> cases needs : needSep pf base <;> simp

/-- An absolute buffer that needs no separator ends with one. -/
theorem needSep_false (absolute : isAbsolute pf base = true) (needs : needSep pf base = false) :
    ∃ front c, base = front ++ [c] ∧ pf.isSepByte c = true := by
  unfold needSep at needs
  split at needs
  · rename_i bare
    obtain ⟨-, whole, drive⟩ := bare
    have noPhys : hasPhysicalRoot pf base = false := by
      rw [hasPhysicalRoot_eq_head, whole, List.drop_length]
      rfl
    cases prefixed : pf.parsePrefix base with
    | none => simp [prefixed] at drive
    | some p =>
        have rooted := hasRoot_of_isAbsolute absolute
        simp_all [hasRoot, Prefix.hasImplicitRoot]
  · split at needs
    · rename_i c last
      exact ⟨base.dropLast, c, (List.dropLast_append_getLast? c last).symm,
        by simpa using needs⟩
    · rename_i empty
      have rooted := hasRoot_of_isAbsolute absolute
      simp only [List.getLast?_eq_none_iff] at empty
      subst empty
      cases pf <;> simp [hasRoot, hasPhysicalRoot, Platform.parsePrefix, prefixLen,
        Windows.parsePrefix, Windows.viewHas, Windows.prefixView, Windows.parseDrive] at rooted

end Push

/-- A plain name: one normal component, with no prefix and no separator. -/
structure PlainName (pf : Platform) (name : List Char) : Prop where
  notEmpty : name ≠ []
  sepFree : ∀ c ∈ name, pf.isSepByte c = false
  notDot : name ≠ ['.']
  notDots : name ≠ ['.', '.']
  prefixNone : pf.parsePrefix name = none

namespace PlainName

variable {pf : Platform} {name : List Char} (plain : PlainName pf name)
include plain

theorem prefixLen_eq : prefixLen pf name = 0 := by
  simp [prefixLen, plain.prefixNone]

theorem isSep_eq : isSep pf name = pf.isSepByte := by
  funext c
  simp [isSep, prefixVerbatim, plain.prefixNone]

theorem hasRoot_eq : hasRoot pf name = false := by
  have physical : hasPhysicalRoot pf name = false := by
    rw [hasPhysicalRoot_eq_head, plain.prefixLen_eq]
    cases name with
    | nil => rfl
    | cons c rest => simp [plain.sepFree c (by simp)]
  simp [hasRoot, physical, plain.prefixNone]

theorem isAbsolute_eq : isAbsolute pf name = false := by
  simp [isAbsolute, plain.hasRoot_eq]

theorem startDir_eq : startDir pf name = (none, 0) := by
  have noCur : includeCurDir pf name = false := by
    unfold includeCurDir
    rw [plain.prefixLen_eq, List.drop_zero, plain.isSep_eq]
    split
    · exact absurd rfl plain.notDot
    · rename_i b rest
      simp [plain.sepFree b (by simp)]
    · simp
  have physical : hasPhysicalRoot pf name = false := by
    simpa [hasRoot, plain.prefixNone] using plain.hasRoot_eq
  simp [startDir, physical, plain.prefixNone, noCur]

theorem components_eq : components pf name = [.normal name] := by
  rw [components, plain.startDir_eq, plain.isSep_eq, plain.prefixLen_eq]
  simp [plain.prefixNone, prefixVerbatim, bodyComponents_of_sepFree plain.sepFree,
    parseSingleComponent_of_normal plain.notEmpty plain.notDot plain.notDots]

end PlainName

/-- The rebuilt verbatim path ends with its last component. -/
theorem renderComponents_concat (pf : Platform) (prefixText : List Char) (needSep : Bool)
    (buf : List Component) (c : Component) :
    c.asOsStr pf prefixText <:+ renderComponents pf prefixText needSep (buf ++ [c]) := by
  induction buf generalizing needSep with
  | nil => simp [renderComponents]
  | cons d buf inductionHypothesis =>
      simp only [List.cons_append, renderComponents]
      exact (inductionHypothesis _).trans (List.suffix_append _ _)

/-- `Path::join` writes a plain name at the end, whatever the base. -/
theorem push_plainName {pf : Platform} {name : List Char} (plain : PlainName pf name)
    (base : List Char) : name <:+ push pf base name := by
  unfold push
  simp only [plain.isAbsolute_eq, plain.prefixNone, plain.hasRoot_eq, Option.isSome_none,
    Bool.or_false, Bool.false_eq_true, if_false]
  split
  · rw [plain.components_eq]
    exact renderComponents_concat pf _ false _ (.normal name)
  · split
    · exact ⟨base ++ [pf.mainSeparator], by simp⟩
    · exact List.suffix_append base name

end Zuban.Path
