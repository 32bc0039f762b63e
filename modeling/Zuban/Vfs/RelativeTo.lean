import Zuban.Vfs.Handler
import Zuban.Path.Parent

/-!
# Relative paths

`path_relative_to` skips the components `from` and `to` share, writes one `..` for every
component left in `to` and then the names left in `from`. Resolving that text against `to`
gives `from` back, with the fewest `..` any such text can have, as long as the separator is
not `.` and `to` has a root directory wherever `from` has one.
-/

namespace Zuban.Vfs

open Zuban.Path

/-! ## The longest common prefix -/

section CommonLength

variable {α : Type} [DecidableEq α]

/-- The length of the longest common prefix of two lists. -/
def commonLength : List α → List α → Nat
  | a :: as, b :: bs => if a = b then commonLength as bs + 1 else 0
  | _, _ => 0

@[simp] theorem commonLength_nil_left (bs : List α) : commonLength [] bs = 0 := rfl

@[simp] theorem commonLength_nil_right (as : List α) : commonLength as [] = 0 := by
  cases as <;> rfl

theorem commonLength_cons_cons (a b : α) (as bs : List α) :
    commonLength (a :: as) (b :: bs) = if a = b then commonLength as bs + 1 else 0 := rfl

theorem commonLength_comm (as bs : List α) : commonLength as bs = commonLength bs as := by
  induction as generalizing bs with
  | nil => simp
  | cons a as inductionHypothesis =>
      cases bs with
      | nil => simp
      | cons b bs => simp [commonLength_cons_cons, inductionHypothesis, eq_comm]

theorem commonLength_self (as : List α) : commonLength as as = as.length := by
  induction as with
  | nil => rfl
  | cons a as inductionHypothesis => simp [commonLength_cons_cons, inductionHypothesis]

theorem commonLength_le_length_left (as bs : List α) : commonLength as bs ≤ as.length := by
  induction as generalizing bs with
  | nil => simp
  | cons a as inductionHypothesis =>
      cases bs with
      | nil => simp
      | cons b bs =>
          rw [commonLength_cons_cons]
          split
          · simpa using inductionHypothesis bs
          · simp

theorem commonLength_le_length_right (as bs : List α) : commonLength as bs ≤ bs.length :=
  commonLength_comm as bs ▸ commonLength_le_length_left bs as

/-- Both lists agree up to their common length. -/
theorem take_commonLength (as bs : List α) :
    as.take (commonLength as bs) = bs.take (commonLength as bs) := by
  induction as generalizing bs with
  | nil => simp
  | cons a as inductionHypothesis =>
      cases bs with
      | nil => simp
      | cons b bs =>
          rw [commonLength_cons_cons]
          split
          · simp [*]
          · simp

/-- Lists that agree on their first `n` entries share a prefix of length `n` at least. -/
theorem le_commonLength {as bs : List α} {n : Nat} (agree : as.take n = bs.take n)
    (leftLong : n ≤ as.length) (rightLong : n ≤ bs.length) : n ≤ commonLength as bs := by
  induction as generalizing bs n with
  | nil => simp_all
  | cons a as inductionHypothesis =>
      cases bs with
      | nil => simp_all
      | cons b bs =>
          cases n with
          | zero => simp
          | succ n =>
              simp only [List.take_succ_cons, List.cons.injEq] at agree
              simp only [List.length_cons, Nat.add_le_add_iff_right] at leftLong rightLong
              simp [commonLength_cons_cons, agree.1, inductionHypothesis agree.2 leftLong rightLong]

theorem commonLength_le_append (as bs extra : List α) :
    commonLength as bs ≤ commonLength as (bs ++ extra) :=
  le_commonLength (by rw [List.take_append_of_le_length (commonLength_le_length_right as bs),
      take_commonLength]) (commonLength_le_length_left as bs)
    (by simpa using Nat.le_add_right_of_le (commonLength_le_length_right as bs))

theorem commonLength_dropLast (as bs : List α) :
    commonLength as bs - 1 ≤ commonLength as bs.dropLast := by
  have leftLong := commonLength_le_length_left as bs
  have rightLong := commonLength_le_length_right as bs
  refine le_commonLength ?_ (by omega) (by simp; omega)
  calc as.take (commonLength as bs - 1)
      _ = (as.take (commonLength as bs)).take (commonLength as bs - 1) := by
        rw [List.take_take, Nat.min_eq_left (Nat.sub_le _ _)]
      _ = (bs.take (commonLength as bs)).take (commonLength as bs - 1) := by
        rw [take_commonLength]
      _ = bs.dropLast.take (commonLength as bs - 1) := by
        rw [List.dropLast_eq_take, List.take_take, List.take_take]
        congr 1
        omega

end CommonLength

theorem dropCommon_eq (fromIt toIt : List Component) :
    dropCommon fromIt toIt =
      (fromIt.drop (commonLength fromIt toIt), toIt.drop (commonLength fromIt toIt)) := by
  induction fromIt generalizing toIt with
  | nil => simp [dropCommon]
  | cons a fromIt inductionHypothesis =>
      cases toIt with
      | nil => simp [dropCommon]
      | cons b toIt =>
          by_cases same : a = b
          · simp [dropCommon, commonLength_cons_cons, same, inductionHypothesis]
          · simp [dropCommon, commonLength_cons_cons, same]

/-! ## The components of an absolute path -/

section Structure

variable (pf : Platform) (path : List Char)

theorem components_ne_nil (absolute : isAbsolute pf path = true) : components pf path ≠ [] := by
  cases prefixed : pf.parsePrefix path with
  | some p => simp [components, prefixed]
  | none =>
      have phys : hasPhysicalRoot pf path = true := by
        cases pf <;> simp_all [isAbsolute, hasRoot, Platform.parsePrefix]
      simp [components, startDir, phys]

theorem normal_mem_components {name : List Char} (member : .normal name ∈ components pf path) :
    name ≠ [] ∧ name ≠ ['.', '.'] := by
  rcases List.mem_append.mp member with front | body
  · rcases startDir_fst pf path with start | start | start <;>
      cases pf.parsePrefix path <;> simp_all
  · obtain ⟨piece, -, parsed⟩ := List.mem_filterMap.mp body
    obtain ⟨-, notEmpty, -, notDots⟩ := parseSingleComponent_normal parsed
    exact ⟨notEmpty, notDots⟩

/-- Root parts stand only in front of the body. -/
theorem rootPart_mem_components {c : Component} (rootPart : c.isRootPart = true) :
    c ∈ components pf path ↔
      c ∈ ((pf.parsePrefix path).map .prefixComponent).toList ++ (startDir pf path).1.toList := by
  constructor
  · intro member
    rcases List.mem_append.mp member with front | body
    · exact front
    · simp [mem_bodyComponents_not_rootPart body] at rootPart
  · exact List.mem_append_left _

theorem rootDir_mem_components :
    Component.rootDir ∈ components pf path ↔ (startDir pf path).1 = some .rootDir := by
  rw [rootPart_mem_components pf path (c := .rootDir) rfl]
  cases pf.parsePrefix path <;> cases (startDir pf path).1 <;> simp [eq_comm]

theorem prefixComponent_mem_components {p : Prefix} :
    Component.prefixComponent p ∈ components pf path ↔ pf.parsePrefix path = some p := by
  rw [rootPart_mem_components pf path (c := .prefixComponent p) rfl]
  rcases startDir_fst pf path with start | start | start <;>
    cases pf.parsePrefix path <;> simp [start, eq_comm]

/-- Past the root parts of `from` only its body is left. -/
theorem not_rootPart_of_mem_drop {k : Nat}
    (long : (((pf.parsePrefix path).map Component.prefixComponent).toList ++
      (startDir pf path).1.toList).length ≤ k)
    {c : Component} (member : c ∈ (components pf path).drop k) : c.isRootPart = false := by
  rw [components, List.drop_append_eq_append_drop, List.drop_eq_nil_of_le long,
    List.nil_append] at member
  exact mem_bodyComponents_not_rootPart (List.mem_of_mem_drop member)

end Structure

/-- When `to` has a root directory wherever `from` has one, the components the two share
cover every root part of `from`. -/
theorem length_roots_le_commonLength (pf : Platform) {fromPath toPath : List Char}
    (first : (components pf fromPath).head? = (components pf toPath).head?)
    (nonempty : components pf fromPath ≠ []) (noCur : Component.curDir ∉ components pf fromPath)
    (rooted : Component.rootDir ∈ components pf fromPath →
      Component.rootDir ∈ components pf toPath) :
    (((pf.parsePrefix fromPath).map Component.prefixComponent).toList ++
        (startDir pf fromPath).1.toList).length ≤
      commonLength (components pf fromPath) (components pf toPath) := by
  have one : 1 ≤ commonLength (components pf fromPath) (components pf toPath) := by
    obtain ⟨a, fromIt, split⟩ := List.exists_cons_of_ne_nil nonempty
    rw [split, List.head?_cons, eq_comm, List.head?_eq_some_iff] at first
    obtain ⟨toIt, first⟩ := first
    simp [split, first, commonLength_cons_cons]
  rcases startDir_fst pf fromPath with start | start | start
  · cases pf.parsePrefix fromPath <;> simp [start, one]
  · cases prefixed : pf.parsePrefix fromPath with
    | none => simpa [start, prefixed] using one
    | some p =>
        have toPrefixed : pf.parsePrefix toPath = some p := by
          refine (prefixComponent_mem_components pf toPath).mp (List.mem_of_mem_head? ?_)
          rw [← first]
          simp [components, prefixed]
        have toStart := (rootDir_mem_components pf toPath).mp
          (rooted ((rootDir_mem_components pf fromPath).mpr start))
        simp [components, prefixed, start, toPrefixed, toStart, commonLength_cons_cons]
  · exact absurd (by simp [components, start]) noCur

/-! ## Reading a relative path back, as the spec does -/

/-- The segments of a relative path: its pieces between `sep`, without the empty ones. -/
def segments (sep : Char) (relative : List Char) : List (List Char) :=
  (relative.splitOn sep).filter (· ≠ [])

/-- One segment of a resolution: `..` removes the last component, any other appends a name. -/
def resolveStep (comps : List Component) (segment : List Char) : List Component :=
  if segment = ['.', '.'] then comps.dropLast else comps ++ [.normal segment]

/-- A relative path resolved against the directory `base`, segment by segment. -/
def resolve (sep : Char) (base : List Component) (relative : List Char) : List Component :=
  (segments sep relative).foldl resolveStep base

def dotDotCount (sep : Char) (relative : List Char) : Nat :=
  (segments sep relative).count ['.', '.']

variable {sep : Char}

@[simp] theorem segments_nil : segments sep [] = [] := by
  simp [segments, List.splitOn]

theorem segments_append_sep (before after : List Char) :
    segments sep (before ++ sep :: after) = segments sep before ++ segments sep after := by
  rw [segments, List.splitOn, splitOnP_append_cons (p := fun c => c == sep) (by simp),
    List.filter_append]
  rfl

theorem segments_sep_cons (after : List Char) :
    segments sep (sep :: after) = segments sep after := by
  simpa using @segments_append_sep sep [] after

theorem segments_of_sepFree {piece : List Char} (free : sep ∉ piece) :
    segments sep piece = if piece = [] then [] else [piece] := by
  rw [segments, List.splitOn, List.splitOnP_eq_single _ _ fun c member same => free (by
    simpa [eq_of_beq same] using member)]
  split <;> simp_all

theorem segments_dots (notDot : sep ≠ '.') (rest : List Component) (tail : List Char) :
    segments sep ((rest.flatMap fun _ => ['.', '.', sep]) ++ tail) =
      List.replicate rest.length ['.', '.'] ++ segments sep tail := by
  induction rest with
  | nil => simp
  | cons c rest inductionHypothesis =>
      have dots : segments sep ['.', '.'] = [['.', '.']] := by
        rw [segments_of_sepFree (by simp [notDot])]
        simp
      have split : (['.', '.', sep] ++ rest.flatMap fun _ => ['.', '.', sep]) ++ tail =
          ['.', '.'] ++ sep :: ((rest.flatMap fun _ => ['.', '.', sep]) ++ tail) := by simp
      rw [List.flatMap_cons, split, segments_append_sep, dots, inductionHypothesis]
      simp [List.replicate_succ]

theorem pushNormals_true_cases (comps : List Component) :
    pushNormals sep true comps = [] ∨ ∃ rest, pushNormals sep true comps = sep :: rest := by
  induction comps with
  | nil => simp [pushNormals]
  | cons c comps inductionHypothesis =>
      cases c <;> simp [pushNormals, inductionHypothesis]

/-- The names `path_relative_to` writes come back as the segments, one each. -/
theorem segments_pushNormals {comps : List Component}
    (named : ∀ c ∈ comps, ∀ name ∈ c.normalName?, name ≠ [] ∧ sep ∉ name)
    (needsSeparator : Bool) :
    segments sep (pushNormals sep needsSeparator comps) =
      comps.filterMap Component.normalName? := by
  induction comps generalizing needsSeparator with
  | nil => simp [pushNormals]
  | cons c comps inductionHypothesis =>
      have later := inductionHypothesis fun c member => named c (List.mem_cons_of_mem _ member)
      cases c with
      | normal name =>
          obtain ⟨notEmpty, free⟩ := named _ (List.mem_cons_self _ _) name rfl
          have front : segments sep (pushNormals sep needsSeparator (.normal name :: comps)) =
              segments sep (name ++ pushNormals sep true comps) := by
            cases needsSeparator
            · simp [pushNormals]
            · simp [pushNormals, segments_sep_cons]
          rw [front, List.filterMap_cons]
          rcases @pushNormals_true_cases sep comps with empty | ⟨rest, separated⟩
          · have none := later true
            rw [empty, segments_nil] at none
            simp [empty, segments_of_sepFree free, notEmpty, ← none, Component.normalName?]
          · have tail := later true
            rw [separated, segments_sep_cons] at tail
            simp [separated, segments_append_sep, segments_of_sepFree free, notEmpty, tail,
              Component.normalName?]
      | _ => simpa [pushNormals, Component.normalName?] using later needsSeparator

/-! ## Resolving -/

theorem foldl_resolveStep_dots (base : List Component) (count : Nat) :
    (List.replicate count ['.', '.']).foldl resolveStep base = base.take (base.length - count) := by
  induction count generalizing base with
  | zero => simp
  | succ count inductionHypothesis =>
      rw [List.replicate_succ, List.foldl_cons, inductionHypothesis, resolveStep, if_pos rfl,
        List.dropLast_eq_take, List.take_take, List.length_take]
      congr 1
      omega

theorem foldl_resolveStep_names (base : List Component) {names : List (List Char)}
    (notDots : ∀ name ∈ names, name ≠ ['.', '.']) :
    names.foldl resolveStep base = base ++ names.map .normal := by
  induction names generalizing base with
  | nil => simp
  | cons name names inductionHypothesis =>
      simp [resolveStep, notDots name (List.mem_cons_self _ _),
        inductionHypothesis _ fun n member => notDots n (List.mem_cons_of_mem _ member)]

/-- Each `..` shortens the common prefix with any fixed list by one at most, and a name never
shortens it. -/
theorem commonLength_foldl_resolveStep (target base : List Component) (segs : List (List Char)) :
    commonLength target base - segs.count ['.', '.'] ≤
      commonLength target (segs.foldl resolveStep base) := by
  induction segs generalizing base with
  | nil => simp
  | cons segment segs inductionHypothesis =>
      have step := inductionHypothesis (resolveStep base segment)
      by_cases dots : segment = ['.', '.']
      · have shorter := commonLength_dropLast target base
        simp only [List.foldl_cons, resolveStep, dots, if_true, List.count_cons] at step ⊢
        simp only [beq_self_eq_true, if_true]
        omega
      · have longer := commonLength_le_append target base [.normal segment]
        simp only [List.foldl_cons, resolveStep, dots, if_false, List.count_cons] at step ⊢
        simp only [beq_iff_eq, dots, if_false, Nat.add_zero]
        omega

/-! ## The round trip -/

/-- A component `path_relative_to` can write back: a root part, or a name without `sep`. -/
def keptBy (sep : Char) : Component → Bool
  | .normal name => decide (sep ∉ name)
  | .curDir | .parentDir => false
  | _ => true

theorem normal_of_keptBy {c : Component} (kept : keptBy sep c = true)
    (notRoot : c.isRootPart = false) : ∃ name, c = .normal name ∧ sep ∉ name := by
  cases c <;> simp_all [keptBy, Component.isRootPart]

theorem map_normal_filterMap {comps : List Component}
    (normal : ∀ c ∈ comps, ∃ name, c = .normal name) :
    (comps.filterMap Component.normalName?).map .normal = comps := by
  induction comps with
  | nil => rfl
  | cons c comps inductionHypothesis =>
      obtain ⟨name, rfl⟩ := normal c (List.mem_cons_self _ _)
      simp [Component.normalName?,
        inductionHypothesis fun c member => normal c (List.mem_cons_of_mem _ member)]

/-- Resolving the text `path_relative_to` writes against `to` gives `from` back, with
one `..` for each component of `to` past the common prefix, which is the fewest `..`
any text resolving to `from` has: when `from` is a root and names without `sep`, `sep`
is not `.`, and `to` has a root directory if `from` has one. -/
theorem pathRelativeTo_resolve (pf : Platform) (fromPath toPath : List Char) (sep : Char)
    (fromAbsolute : isAbsolute pf fromPath = true) (toAbsolute : isAbsolute pf toPath = true)
    (kept : ∀ c ∈ components pf fromPath, keptBy sep c = true) (notDot : sep ≠ '.')
    (rooted : Component.rootDir ∈ components pf fromPath →
      Component.rootDir ∈ components pf toPath) :
    (pathRelativeTo pf fromPath toPath sep = none ↔
        (components pf fromPath).head? ≠ (components pf toPath).head?) ∧
      ∀ relative, pathRelativeTo pf fromPath toPath sep = some relative →
        resolve sep (components pf toPath) relative = components pf fromPath ∧
        dotDotCount sep relative = (components pf toPath).length -
          commonLength (components pf fromPath) (components pf toPath) ∧
        ∀ other, resolve sep (components pf toPath) other = components pf fromPath →
          dotDotCount sep relative ≤ dotDotCount sep other := by
  obtain ⟨a, fromIt, fromComps⟩ :=
    List.exists_cons_of_ne_nil (components_ne_nil pf fromPath fromAbsolute)
  obtain ⟨b, toIt, toComps⟩ :=
    List.exists_cons_of_ne_nil (components_ne_nil pf toPath toAbsolute)
  by_cases same : a = b
  swap
  · have differ : pathRelativeTo pf fromPath toPath sep = none := by
      simp [pathRelativeTo, fromComps, toComps, same]
    simp [differ, fromComps, toComps, same]
  subst same
  have commonAll : commonLength (components pf fromPath) (components pf toPath) =
      commonLength fromIt toIt + 1 := by
    simp [fromComps, toComps, commonLength_cons_cons]
  have written : pathRelativeTo pf fromPath toPath sep =
      some (((toIt.drop (commonLength fromIt toIt)).flatMap fun _ => ['.', '.', sep]) ++
        pushNormals sep false (fromIt.drop (commonLength fromIt toIt))) := by
    simp [pathRelativeTo, fromComps, toComps, dropCommon_eq]
  refine ⟨by simp [written, fromComps, toComps], fun relative chosen => ?_⟩
  rw [written, Option.some.injEq] at chosen
  subst chosen
  -- what is left of `from` past the common prefix is names
  have named : ∀ c ∈ fromIt.drop (commonLength fromIt toIt),
      ∃ name, c = .normal name ∧ name ≠ [] ∧ name ≠ ['.', '.'] ∧ sep ∉ name := by
    intro c member
    have member : c ∈ (components pf fromPath).drop
        (commonLength (components pf fromPath) (components pf toPath)) := by
      rwa [commonAll, fromComps, List.drop_succ_cons]
    have long := length_roots_le_commonLength pf (by simp [fromComps, toComps])
      (components_ne_nil pf fromPath fromAbsolute) (fun cur => by simpa [keptBy] using kept _ cur)
      rooted
    obtain ⟨name, rfl, free⟩ := normal_of_keptBy (kept c (List.mem_of_mem_drop member))
      (not_rootPart_of_mem_drop pf fromPath long member)
    exact ⟨name, rfl, normal_mem_components pf fromPath (List.mem_of_mem_drop member) |>.1,
      normal_mem_components pf fromPath (List.mem_of_mem_drop member) |>.2, free⟩
  have notDots : ∀ name ∈ (fromIt.drop (commonLength fromIt toIt)).filterMap
      Component.normalName?, name ≠ ['.', '.'] := by
    intro name member
    obtain ⟨c, member, found⟩ := List.mem_filterMap.mp member
    obtain ⟨name', rfl, -, notDots, -⟩ := named c member
    cases found
    exact notDots
  have segs : segments sep (((toIt.drop (commonLength fromIt toIt)).flatMap
      fun _ => ['.', '.', sep]) ++ pushNormals sep false (fromIt.drop (commonLength fromIt toIt))) =
      List.replicate (toIt.length - commonLength fromIt toIt) ['.', '.'] ++
        (fromIt.drop (commonLength fromIt toIt)).filterMap Component.normalName? := by
    rw [segments_dots notDot, List.length_drop, segments_pushNormals]
    intro c member name found
    obtain ⟨name', rfl, notEmpty, -, free⟩ := named c member
    cases found
    exact ⟨notEmpty, free⟩
  have count : dotDotCount sep (((toIt.drop (commonLength fromIt toIt)).flatMap
      fun _ => ['.', '.', sep]) ++ pushNormals sep false (fromIt.drop (commonLength fromIt toIt))) =
      toIt.length - commonLength fromIt toIt := by
    rw [dotDotCount, segs, List.count_append, List.count_replicate_self,
      List.count_eq_zero_of_not_mem fun member => notDots _ member rfl, Nat.add_zero]
  have shorter := commonLength_le_length_right fromIt toIt
  refine ⟨?_, by rw [count, commonAll, toComps, List.length_cons]; omega,
    fun other resolved => ?_⟩
  · rw [resolve, segs, List.foldl_append, foldl_resolveStep_dots,
      foldl_resolveStep_names _ notDots,
      map_normal_filterMap fun c member => (named c member).imp fun _ named => named.1, toComps,
      fromComps, List.length_cons,
      show toIt.length + 1 - (toIt.length - commonLength fromIt toIt) = commonLength fromIt toIt + 1
        by omega, List.take_succ_cons, ← take_commonLength, List.cons_append,
      List.take_append_drop]
  · have bound := commonLength_foldl_resolveStep (components pf toPath) (components pf toPath)
      (segments sep other)
    rw [← resolve, resolved, commonLength_self, commonLength_comm, commonAll, toComps] at bound
    simp only [List.length_cons] at bound
    rw [count, dotDotCount]
    omega

theorem pathRelativeTo_resolve_sibling :
    (pathRelativeTo .unix "/a/b".toList "/a/c".toList '/' = none ↔
        (components .unix "/a/b".toList).head? ≠ (components .unix "/a/c".toList).head?) ∧
      ∀ relative, pathRelativeTo .unix "/a/b".toList "/a/c".toList '/' = some relative →
        resolve '/' (components .unix "/a/c".toList) relative = components .unix "/a/b".toList ∧
        dotDotCount '/' relative = (components .unix "/a/c".toList).length -
          commonLength (components .unix "/a/b".toList) (components .unix "/a/c".toList) ∧
        ∀ other, resolve '/' (components .unix "/a/c".toList) other =
            components .unix "/a/b".toList →
          dotDotCount '/' relative ≤ dotDotCount '/' other :=
  pathRelativeTo_resolve .unix _ _ '/' (by decide) (by decide) (by decide) (by decide) (by decide)

/-- Two round trips that fail: with `.` as the separator the `..` run reads as empty
segments, and a verbatim `from` with a root directory loses it against a `to` without one. -/
theorem pathRelativeTo_resolve_fails :
    (isAbsolute .unix "/a".toList = true ∧ isAbsolute .unix "/b".toList = true ∧
      (∀ c ∈ components .unix "/a".toList ++ components .unix "/b".toList,
        keptBy '.' c = true) ∧
      pathRelativeTo .unix "/a".toList "/b".toList '.' = some "...a".toList ∧
      resolve '.' (components .unix "/b".toList) "...a".toList ≠ components .unix "/a".toList) ∧
    (isAbsolute .windows "\\\\?\\C:\\".toList = true ∧
      isAbsolute .windows "\\\\?\\C:".toList = true ∧
      (∀ c ∈ components .windows "\\\\?\\C:\\".toList ++
        components .windows "\\\\?\\C:".toList, keptBy '\\' c = true) ∧
      pathRelativeTo .windows "\\\\?\\C:\\".toList "\\\\?\\C:".toList '\\' = some [] ∧
      resolve '\\' (components .windows "\\\\?\\C:".toList) [] ≠
        components .windows "\\\\?\\C:\\".toList) := by
  decide

end Zuban.Vfs
