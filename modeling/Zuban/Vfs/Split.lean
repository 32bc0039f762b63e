import Zuban.Vfs.Handler

/-!
# Splitting off the first or the last item

`split_off_first_item` and `split_off_last_item` cut a path at one separator. Off Windows,
or when `separator()` is `/` itself, they cut at the first or the last separator. On
Windows with another `separator()` they search for both characters, and when both occur the
comparison keeps the later of the two first positions and the earlier of the two last ones,
so that an accepted separator is left on the wrong side of the cut. Either way the cut is at
an accepted separator and the two pieces rebuild the path.
-/

namespace Zuban.Vfs

/-! ## `find` and `rfind` -/

theorem find_eq_none_iff {c : Char} {path : List Char} : find c path = none ↔ c ∉ path := by
  induction path with
  | nil => simp [find]
  | cons x rest inductionHypothesis =>
      by_cases same : x = c
      · simp [find, same]
      · simp [find, same, Ne.symm same, inductionHypothesis]

theorem find_eq_some_iff {c : Char} {path : List Char} {index : Nat} :
    find c path = some index ↔
      ∃ before after, path = before ++ c :: after ∧ index = before.length ∧ c ∉ before := by
  induction path generalizing index with
  | nil => simp [find]
  | cons x rest inductionHypothesis =>
      by_cases same : x = c
      · subst same
        simp only [find, if_true, Option.some.injEq]
        constructor
        · rintro rfl
          exact ⟨[], rest, rfl, rfl, List.not_mem_nil _⟩
        · rintro ⟨_ | ⟨y, before⟩, after, split, rfl, free⟩
          · rfl
          · simp_all
      · simp only [find, same, if_false, Option.map_eq_some', inductionHypothesis]
        constructor
        · rintro ⟨_, ⟨before, after, rfl, rfl, free⟩, rfl⟩
          exact ⟨x :: before, after, rfl, rfl, by simp [Ne.symm same, free]⟩
        · rintro ⟨_ | ⟨y, before⟩, after, split, rfl, free⟩
          · simp_all
          · simp only [List.cons_append, List.cons.injEq] at split
            obtain ⟨rfl, rfl⟩ := split
            exact ⟨before.length, ⟨before, after, rfl, rfl, by simp_all⟩, rfl⟩

theorem rfind_eq_none_iff {c : Char} {path : List Char} : rfind c path = none ↔ c ∉ path := by
  induction path with
  | nil => simp [rfind]
  | cons x rest inductionHypothesis =>
      cases found : rfind c rest with
      | some i =>
          have member : c ∈ rest := by
            by_contra absent
            simp [inductionHypothesis.mpr absent] at found
          simp [rfind, found, member]
      | none =>
          have absent := inductionHypothesis.mp found
          by_cases same : x = c
          · simp [rfind, found, same]
          · simp [rfind, found, same, Ne.symm same, absent]

theorem rfind_eq_some_iff {c : Char} {path : List Char} {index : Nat} :
    rfind c path = some index ↔
      ∃ before after, path = before ++ c :: after ∧ index = before.length ∧ c ∉ after := by
  induction path generalizing index with
  | nil => simp [rfind]
  | cons x rest inductionHypothesis =>
      cases found : rfind c rest with
      | some i =>
          simp only [rfind, found, Option.some.injEq]
          constructor
          · rintro rfl
            obtain ⟨before, after, rfl, rfl, free⟩ := inductionHypothesis.mp found
            exact ⟨x :: before, after, rfl, rfl, free⟩
          · rintro ⟨_ | ⟨y, before⟩, after, split, rfl, free⟩
            · simp only [List.nil_append, List.cons.injEq] at split
              have member : c ∈ rest := by
                by_contra absent
                simp [rfind_eq_none_iff.mpr absent] at found
              exact absurd (split.2 ▸ member) free
            · simp only [List.cons_append, List.cons.injEq] at split
              have chosen := inductionHypothesis.mpr ⟨before, after, split.2, rfl, free⟩
              rw [found, Option.some.injEq] at chosen
              simp [chosen]
      | none =>
          have absent := rfind_eq_none_iff.mp found
          simp only [rfind, found]
          constructor
          · intro chosen
            split at chosen
            · rename_i same
              subst same
              cases Option.some.inj chosen
              exact ⟨[], rest, rfl, rfl, absent⟩
            · cases chosen
          · rintro ⟨_ | ⟨y, before⟩, after, split, rfl, -⟩
            · simp_all
            · simp only [List.cons_append, List.cons.injEq] at split
              exact absurd (split.2 ▸ List.mem_append_right _ (List.mem_cons_self c after)) absent

/-- Two cuts of one path: the earlier one's separator lies before the later cut, and the later
one's separator after the earlier cut. -/
theorem mem_of_cut_lt {path before after before' after' : List Char} {c d : Char}
    (cut : path = before ++ c :: after) (cut' : path = before' ++ d :: after')
    (shorter : before.length < before'.length) : c ∈ before' ∧ d ∈ after := by
  rw [cut'] at cut
  rcases List.append_eq_append_iff.mp cut with
    ⟨middle, rfl, -⟩ | ⟨_ | ⟨x, middle⟩, rfl, rest⟩
  · simp only [List.length_append] at shorter
    omega
  · simp at shorter
  · simp only [List.cons_append, List.cons.injEq] at rest
    obtain ⟨rfl, rfl⟩ := rest
    simp

theorem ne_of_cut_ne {path before after before' after' : List Char} {c d : Char}
    (cut : path = before ++ c :: after) (cut' : path = before' ++ d :: after')
    (distinct : c ≠ d) :
    before.length ≠ before'.length := fun same =>
  distinct (List.head_eq_of_cons_eq (List.append_inj (cut.symm.trans cut') same).2)

/-! ## What the spec asks -/

namespace VfsHandler

variable (vfs : VfsHandler)

/-- The separators a path may use: `separator()`, and on Windows `/` as well. -/
def accepts (c : Char) : Bool := c = vfs.separator || (vfs.windows && c = '/')

/-- On Windows with a `separator()` other than `/` two characters separate. -/
def mixedSeparators : Bool := vfs.windows && vfs.separator != '/'

variable {vfs}

@[simp] theorem accepts_separator : vfs.accepts vfs.separator = true := by simp [accepts]

theorem accepts_slash (windows : vfs.windows = true) : vfs.accepts '/' = true := by
  simp [accepts, windows]

theorem eq_of_accepts {c : Char} (accepted : vfs.accepts c = true) :
    c = vfs.separator ∨ c = '/' := by
  simp only [accepts, Bool.or_eq_true, Bool.and_eq_true, decide_eq_true_eq] at accepted
  tauto

theorem eq_separator_of_accepts (notMixed : vfs.mixedSeparators = false) {c : Char}
    (accepted : vfs.accepts c = true) : c = vfs.separator := by
  simp only [mixedSeparators, Bool.and_eq_false_iff, bne_eq_false_iff_eq] at notMixed
  simp only [accepts, Bool.or_eq_true, Bool.and_eq_true, decide_eq_true_eq] at accepted
  rcases accepted with same | ⟨windows, rfl⟩
  · exact same
  · simp_all

end VfsHandler

/-- The spec of `split_off_first_item`: the whole path when it holds no accepted separator,
and otherwise a cut at an accepted separator with none before it. -/
def FirstSplit (accepts : Char → Bool) (path : List Char) :
    List Char × Option (List Char) → Prop
  | (whole, none) => whole = path ∧ ∀ c ∈ path, accepts c = false
  | (before, some after) =>
      ∃ c, accepts c = true ∧ path = before ++ c :: after ∧
        ∀ x ∈ before, accepts x = false

/-- The spec of `split_off_last_item`: the whole path when it holds no accepted separator,
and otherwise a cut at an accepted separator with none after it. -/
def LastSplit (accepts : Char → Bool) (path : List Char) :
    Option (List Char) × List Char → Prop
  | (none, whole) => whole = path ∧ ∀ c ∈ path, accepts c = false
  | (some before, after) =>
      ∃ c, accepts c = true ∧ path = before ++ c :: after ∧ ∀ x ∈ after, accepts x = false

/-- What a cut keeps whichever accepted separator it picks: the whole path when the path holds
no accepted separator, and otherwise two pieces that rebuild it around one. -/
def FirstCut (accepts : Char → Bool) (path : List Char) :
    List Char × Option (List Char) → Prop
  | (whole, none) => whole = path ∧ ∀ c ∈ path, accepts c = false
  | (before, some after) => ∃ c, accepts c = true ∧ path = before ++ c :: after

/-- `FirstCut` for the pair that `split_off_last_item` returns. -/
def LastCut (accepts : Char → Bool) (path : List Char) :
    Option (List Char) × List Char → Prop
  | (none, whole) => whole = path ∧ ∀ c ∈ path, accepts c = false
  | (some before, after) => ∃ c, accepts c = true ∧ path = before ++ c :: after

/-! ## Where the code cuts -/

namespace VfsHandler

variable {vfs : VfsHandler} {path : List Char}

theorem splitOffFirstItem_of_found {pos : Nat} (found : vfs.firstFound path = some pos) :
    vfs.splitOffFirstItem path = (path.take pos, some (path.drop (pos + 1))) := by
  simp [splitOffFirstItem, found]

theorem splitOffFirstItem_of_not_found (found : vfs.firstFound path = none) :
    vfs.splitOffFirstItem path = (path, none) := by
  simp [splitOffFirstItem, found]

theorem splitOffLastItem_of_found {pos : Nat} (found : vfs.lastFound path = some pos) :
    vfs.splitOffLastItem path = (some (path.take pos), path.drop (pos + 1)) := by
  simp [splitOffLastItem, found]

theorem splitOffLastItem_of_not_found (found : vfs.lastFound path = none) :
    vfs.splitOffLastItem path = (none, path) := by
  simp [splitOffLastItem, found]

theorem firstFound_of_not_mixed (notMixed : vfs.mixedSeparators = false) :
    vfs.firstFound path = find vfs.separator path := by
  simp only [mixedSeparators, Bool.and_eq_false_iff, bne_eq_false_iff_eq] at notMixed
  rcases notMixed with windows | same
  · simp [firstFound, windows]
  · cases found : find '/' path <;> simp [firstFound, same, found]

theorem lastFound_of_not_mixed (notMixed : vfs.mixedSeparators = false) :
    vfs.lastFound path = rfind vfs.separator path := by
  simp only [mixedSeparators, Bool.and_eq_false_iff, bne_eq_false_iff_eq] at notMixed
  rcases notMixed with windows | same
  · simp [lastFound, windows]
  · cases found : rfind '/' path <;> simp [lastFound, same, found]

theorem firstFound_of_not_mem_slash (absent : '/' ∉ path) :
    vfs.firstFound path = find vfs.separator path := by
  simp [firstFound, find_eq_none_iff.mpr absent]

theorem lastFound_of_not_mem_slash (absent : '/' ∉ path) :
    vfs.lastFound path = rfind vfs.separator path := by
  simp [lastFound, rfind_eq_none_iff.mpr absent]

theorem firstFound_of_not_mem_separator (windows : vfs.windows = true)
    (absent : vfs.separator ∉ path) : vfs.firstFound path = find '/' path := by
  cases found : find '/' path <;> simp [firstFound, windows, find_eq_none_iff.mpr absent, found]

theorem lastFound_of_not_mem_separator (windows : vfs.windows = true)
    (absent : vfs.separator ∉ path) : vfs.lastFound path = rfind '/' path := by
  cases found : rfind '/' path <;> simp [lastFound, windows, rfind_eq_none_iff.mpr absent, found]

/-- With both characters present, `split_off_first_item` takes the later first position. -/
theorem firstFound_of_both (windows : vfs.windows = true) {i j : Nat}
    (found : find vfs.separator path = some i) (foundSlash : find '/' path = some j) :
    vfs.firstFound path = some (max i j) := by
  by_cases le : i ≤ j <;> simp [firstFound, windows, found, foundSlash, le, max_def]

/-- With both characters present, `split_off_last_item` takes the earlier last position. -/
theorem lastFound_of_both (windows : vfs.windows = true) {i j : Nat}
    (found : rfind vfs.separator path = some i) (foundSlash : rfind '/' path = some j) :
    vfs.lastFound path = some (min i j) := by
  by_cases le : j ≤ i
  · simp [lastFound, windows, found, foundSlash, le, Nat.min_eq_right le]
  · simp [lastFound, windows, found, foundSlash, le, Nat.min_eq_left (Nat.le_of_not_le le)]

theorem free_iff_not_mem :
    (∀ c ∈ path, vfs.accepts c = false) ↔
      vfs.separator ∉ path ∧ (vfs.windows = true → '/' ∉ path) := by
  simp only [accepts, Bool.or_eq_false_iff, Bool.and_eq_false_iff, decide_eq_false_iff_not]
  constructor
  · intro free
    exact ⟨fun member => (free _ member).1 rfl,
      fun windows member => by simpa [windows] using free _ member⟩
  · rintro ⟨noSeparator, noSlash⟩ c member
    refine ⟨fun same => noSeparator (same ▸ member), ?_⟩
    cases windows : vfs.windows
    · exact .inl rfl
    · exact .inr fun same => noSlash windows (same ▸ member)

/-- `split_off_first_item` keeps the whole path exactly when no accepted separator occurs. -/
theorem firstFound_eq_none_iff :
    vfs.firstFound path = none ↔ ∀ c ∈ path, vfs.accepts c = false := by
  rw [free_iff_not_mem, ← find_eq_none_iff, ← find_eq_none_iff]
  cases windows : vfs.windows
  · simp [firstFound, windows]
  cases foundSlash : find '/' path with
  | none => simp [firstFound, windows, foundSlash]
  | some j =>
      cases found : find vfs.separator path with
      | none => simp [firstFound, windows, foundSlash, found]
      | some i => simp [firstFound_of_both windows found foundSlash, found]

/-- `split_off_last_item` keeps the whole path exactly when no accepted separator occurs. -/
theorem lastFound_eq_none_iff :
    vfs.lastFound path = none ↔ ∀ c ∈ path, vfs.accepts c = false := by
  rw [free_iff_not_mem, ← rfind_eq_none_iff, ← rfind_eq_none_iff]
  cases windows : vfs.windows
  · simp [lastFound, windows]
  cases foundSlash : rfind '/' path with
  | none => simp [lastFound, windows, foundSlash]
  | some j =>
      cases found : rfind vfs.separator path with
      | none => simp [lastFound, windows, foundSlash, found]
      | some i => simp [lastFound_of_both windows found foundSlash, found]

/-- Whichever search wins, `split_off_first_item` cuts where one accepted character is first. -/
theorem firstFound_eq_find : ∃ d, vfs.accepts d = true ∧ vfs.firstFound path = find d path := by
  cases windows : vfs.windows
  · exact ⟨_, accepts_separator, by simp [firstFound, windows]⟩
  cases foundSlash : find '/' path with
  | none => exact ⟨_, accepts_separator, by simp [firstFound, windows, foundSlash]⟩
  | some j =>
      by_cases earlier : (find vfs.separator path).all (· ≤ j)
      · exact ⟨'/', accepts_slash windows, by simp [firstFound, windows, foundSlash, earlier]⟩
      · exact ⟨_, accepts_separator, by simp [firstFound, windows, foundSlash, earlier]⟩

/-- Whichever search wins, `split_off_last_item` cuts where one accepted character is last. -/
theorem lastFound_eq_rfind : ∃ d, vfs.accepts d = true ∧ vfs.lastFound path = rfind d path := by
  cases windows : vfs.windows
  · exact ⟨_, accepts_separator, by simp [lastFound, windows]⟩
  cases foundSlash : rfind '/' path with
  | none => exact ⟨_, accepts_separator, by simp [lastFound, windows, foundSlash]⟩
  | some j =>
      by_cases later : (rfind vfs.separator path).all (· ≥ j)
      · exact ⟨'/', accepts_slash windows, by simp [lastFound, windows, foundSlash, later]⟩
      · exact ⟨_, accepts_separator, by simp [lastFound, windows, foundSlash, later]⟩

theorem splitOffFirstItem_firstCut : FirstCut vfs.accepts path (vfs.splitOffFirstItem path) := by
  cases chosen : vfs.firstFound path with
  | none =>
      rw [splitOffFirstItem_of_not_found chosen]
      exact ⟨rfl, firstFound_eq_none_iff.mp chosen⟩
  | some pos =>
      rw [splitOffFirstItem_of_found chosen]
      obtain ⟨d, accepted, searched⟩ := @firstFound_eq_find vfs path
      obtain ⟨before, after, cut, rfl, -⟩ := find_eq_some_iff.mp (searched ▸ chosen)
      exact ⟨d, accepted, by simp [cut]⟩

theorem splitOffLastItem_lastCut : LastCut vfs.accepts path (vfs.splitOffLastItem path) := by
  cases chosen : vfs.lastFound path with
  | none =>
      rw [splitOffLastItem_of_not_found chosen]
      exact ⟨rfl, lastFound_eq_none_iff.mp chosen⟩
  | some pos =>
      rw [splitOffLastItem_of_found chosen]
      obtain ⟨d, accepted, searched⟩ := @lastFound_eq_rfind vfs path
      obtain ⟨before, after, cut, rfl, -⟩ := rfind_eq_some_iff.mp (searched ▸ chosen)
      exact ⟨d, accepted, by simp [cut]⟩

/-- A cut at the first `d`, when `d` is the one accepted separator in the path, is what
the spec asks. -/
theorem firstSplit_of_find {d : Char} (acceptsD : vfs.accepts d = true)
    (only : ∀ x ∈ path, vfs.accepts x = true → x = d)
    (found : vfs.firstFound path = find d path) :
    FirstSplit vfs.accepts path (vfs.splitOffFirstItem path) := by
  cases chosen : find d path with
  | none =>
      rw [splitOffFirstItem_of_not_found (found.trans chosen)]
      refine ⟨rfl, fun x member => Bool.eq_false_iff.mpr fun accepted => ?_⟩
      exact find_eq_none_iff.mp chosen (only x member accepted ▸ member)
  | some pos =>
      obtain ⟨before, after, rfl, rfl, free⟩ := find_eq_some_iff.mp chosen
      rw [splitOffFirstItem_of_found (found.trans chosen)]
      simp only [FirstSplit, List.take_left', List.drop_append, List.drop_succ_cons, List.drop_zero]
      refine ⟨d, acceptsD, by simp, fun x member => Bool.eq_false_iff.mpr fun accepted => ?_⟩
      exact free (only x (by simp [member]) accepted ▸ member)

/-- A cut at the last `d`, when `d` is the one accepted separator in the path, is what
the spec asks. -/
theorem lastSplit_of_rfind {d : Char} (acceptsD : vfs.accepts d = true)
    (only : ∀ x ∈ path, vfs.accepts x = true → x = d)
    (found : vfs.lastFound path = rfind d path) :
    LastSplit vfs.accepts path (vfs.splitOffLastItem path) := by
  cases chosen : rfind d path with
  | none =>
      rw [splitOffLastItem_of_not_found (found.trans chosen)]
      refine ⟨rfl, fun x member => Bool.eq_false_iff.mpr fun accepted => ?_⟩
      exact rfind_eq_none_iff.mp chosen (only x member accepted ▸ member)
  | some pos =>
      obtain ⟨before, after, rfl, rfl, free⟩ := rfind_eq_some_iff.mp chosen
      rw [splitOffLastItem_of_found (found.trans chosen)]
      simp only [LastSplit, List.take_left', List.drop_append, List.drop_succ_cons, List.drop_zero]
      refine ⟨d, acceptsD, by simp, fun x member => Bool.eq_false_iff.mpr fun accepted => ?_⟩
      exact free (only x (by simp [member]) accepted ▸ member)

/-- Unless the handler accepts two different separators and the path holds both,
`split_off_last_item` cuts at the last accepted separator. -/
theorem lastSplit_of_not_both
    (notBoth : ¬(vfs.mixedSeparators = true ∧ vfs.separator ∈ path ∧ '/' ∈ path)) :
    LastSplit vfs.accepts path (vfs.splitOffLastItem path) := by
  cases mixed : vfs.mixedSeparators
  · exact lastSplit_of_rfind accepts_separator (fun _ _ => eq_separator_of_accepts mixed)
      (lastFound_of_not_mixed mixed)
  have windows : vfs.windows = true := by simp_all [mixedSeparators]
  by_cases hasSeparator : vfs.separator ∈ path
  · have noSlash : '/' ∉ path := fun hasSlash => notBoth ⟨mixed, hasSeparator, hasSlash⟩
    exact lastSplit_of_rfind accepts_separator
      (fun _ member accepted =>
        (eq_of_accepts accepted).resolve_right fun same => noSlash (same ▸ member))
      (lastFound_of_not_mem_slash noSlash)
  · exact lastSplit_of_rfind (accepts_slash windows)
      (fun _ member accepted =>
        (eq_of_accepts accepted).resolve_left fun same => hasSeparator (same ▸ member))
      (lastFound_of_not_mem_separator windows hasSeparator)

end VfsHandler

/-! ## The two splits against the spec -/

open VfsHandler

/-- `split_off_first_item` cuts at the first accepted separator, unless Windows accepts two
separator characters and the path holds both. -/
theorem splitOffFirstItem_firstSplit_iff (vfs : VfsHandler) (path : List Char) :
    FirstSplit vfs.accepts path (vfs.splitOffFirstItem path) ↔
      ¬(vfs.mixedSeparators = true ∧ vfs.separator ∈ path ∧ '/' ∈ path) := by
  cases mixed : vfs.mixedSeparators
  · simp only [Bool.false_eq_true, false_and, not_false_eq_true, iff_true]
    exact firstSplit_of_find accepts_separator (fun _ _ => eq_separator_of_accepts mixed)
      (firstFound_of_not_mixed mixed)
  have windows : vfs.windows = true := by simp_all [mixedSeparators]
  have distinct : vfs.separator ≠ '/' := by simp_all [mixedSeparators]
  simp only [true_and]
  by_cases hasSeparator : vfs.separator ∈ path
  · by_cases hasSlash : '/' ∈ path
    · simp only [hasSeparator, hasSlash, not_true_eq_false, and_self, iff_false]
      cases found : find vfs.separator path with
      | none => exact absurd hasSeparator (find_eq_none_iff.mp found)
      | some i =>
      cases foundSlash : find '/' path with
      | none => exact absurd hasSlash (find_eq_none_iff.mp foundSlash)
      | some j =>
      rw [splitOffFirstItem_of_found (firstFound_of_both windows found foundSlash)]
      obtain ⟨before, after, cut, rfl, -⟩ := find_eq_some_iff.mp found
      obtain ⟨before', after', cut', rfl, -⟩ := find_eq_some_iff.mp foundSlash
      rintro ⟨c, -, -, free⟩
      rcases Nat.lt_or_gt_of_ne (ne_of_cut_ne cut cut' distinct) with earlier | later
      · rw [max_eq_right earlier.le, cut', List.take_left] at free
        exact absurd (free _ (mem_of_cut_lt cut cut' earlier).1) (by simp)
      · rw [max_eq_left later.le, cut, List.take_left] at free
        exact absurd (free _ (mem_of_cut_lt cut' cut later).1) (by simp [accepts_slash windows])
    · simp only [hasSlash, and_false, not_false_eq_true, iff_true]
      exact firstSplit_of_find accepts_separator
        (fun _ member accepted =>
          (eq_of_accepts accepted).resolve_right fun same => hasSlash (same ▸ member))
        (firstFound_of_not_mem_slash hasSlash)
  · simp only [hasSeparator, false_and, not_false_eq_true, iff_true]
    exact firstSplit_of_find (accepts_slash windows)
      (fun _ member accepted =>
        (eq_of_accepts accepted).resolve_left fun same => hasSeparator (same ▸ member))
      (firstFound_of_not_mem_separator windows hasSeparator)

theorem splitOffFirstItem_mixed_separators :
    (native .windows).splitOffFirstItem "a\\b/c".toList = ("a\\b".toList, some ['c']) ∧
      ¬FirstSplit (native .windows).accepts "a\\b/c".toList
        ((native .windows).splitOffFirstItem "a\\b/c".toList) := by
  have cut : (native .windows).splitOffFirstItem "a\\b/c".toList = ("a\\b".toList, some ['c']) := by
    decide
  refine ⟨cut, ?_⟩
  rw [cut]
  rintro ⟨c, -, -, free⟩
  exact absurd (free '\\' (by decide)) (by decide)

/-- `split_off_last_item` cuts at the last accepted separator, unless Windows accepts two
separator characters and the path holds both. -/
theorem splitOffLastItem_lastSplit_iff (vfs : VfsHandler) (path : List Char) :
    LastSplit vfs.accepts path (vfs.splitOffLastItem path) ↔
      ¬(vfs.mixedSeparators = true ∧ vfs.separator ∈ path ∧ '/' ∈ path) := by
  cases mixed : vfs.mixedSeparators
  · simp only [Bool.false_eq_true, false_and, not_false_eq_true, iff_true]
    exact lastSplit_of_rfind accepts_separator (fun _ _ => eq_separator_of_accepts mixed)
      (lastFound_of_not_mixed mixed)
  have windows : vfs.windows = true := by simp_all [mixedSeparators]
  have distinct : vfs.separator ≠ '/' := by simp_all [mixedSeparators]
  simp only [true_and]
  by_cases hasSeparator : vfs.separator ∈ path
  · by_cases hasSlash : '/' ∈ path
    · simp only [hasSeparator, hasSlash, not_true_eq_false, and_self, iff_false]
      cases found : rfind vfs.separator path with
      | none => exact absurd hasSeparator (rfind_eq_none_iff.mp found)
      | some i =>
      cases foundSlash : rfind '/' path with
      | none => exact absurd hasSlash (rfind_eq_none_iff.mp foundSlash)
      | some j =>
      rw [splitOffLastItem_of_found (lastFound_of_both windows found foundSlash)]
      obtain ⟨before, after, cut, rfl, -⟩ := rfind_eq_some_iff.mp found
      obtain ⟨before', after', cut', rfl, -⟩ := rfind_eq_some_iff.mp foundSlash
      rintro ⟨c, -, -, free⟩
      rcases Nat.lt_or_gt_of_ne (ne_of_cut_ne cut cut' distinct) with earlier | later
      · rw [min_eq_left earlier.le, cut, List.drop_append, List.drop_succ_cons,
          List.drop_zero] at free
        exact absurd (free _ (mem_of_cut_lt cut cut' earlier).2) (by simp [accepts_slash windows])
      · rw [min_eq_right later.le, cut', List.drop_append, List.drop_succ_cons,
          List.drop_zero] at free
        exact absurd (free _ (mem_of_cut_lt cut' cut later).2) (by simp)
    · simp only [hasSlash, and_false, not_false_eq_true, iff_true]
      exact lastSplit_of_rfind accepts_separator
        (fun _ member accepted =>
          (eq_of_accepts accepted).resolve_right fun same => hasSlash (same ▸ member))
        (lastFound_of_not_mem_slash hasSlash)
  · simp only [hasSeparator, false_and, not_false_eq_true, iff_true]
    exact lastSplit_of_rfind (accepts_slash windows)
      (fun _ member accepted =>
        (eq_of_accepts accepted).resolve_left fun same => hasSeparator (same ▸ member))
      (lastFound_of_not_mem_separator windows hasSeparator)

theorem splitOffLastItem_mixed_separators :
    (native .windows).splitOffLastItem "a/b\\c".toList = (some ['a'], "b\\c".toList) ∧
      ¬LastSplit (native .windows).accepts "a/b\\c".toList
        ((native .windows).splitOffLastItem "a/b\\c".toList) := by
  have cut : (native .windows).splitOffLastItem "a/b\\c".toList = (some ['a'], "b\\c".toList) := by
    decide
  refine ⟨cut, ?_⟩
  rw [cut]
  rintro ⟨c, -, -, free⟩
  exact absurd (free '\\' (by decide)) (by decide)

/-- Both splits, on every handler and every path, mixed separators included, cut at an
accepted separator and lose no character: what goes wrong with mixed separators is only which
one they pick. -/
theorem splitOffItems_cut (vfs : VfsHandler) (path : List Char) :
    FirstCut vfs.accepts path (vfs.splitOffFirstItem path) ∧
      LastCut vfs.accepts path (vfs.splitOffLastItem path) :=
  ⟨splitOffFirstItem_firstCut, splitOffLastItem_lastCut⟩

end Zuban.Vfs
