import Zuban.Path.Push

/-!
# The components of a joined path

Read back by `Path::components`, what `PathBuf::push` writes for a relative path is the base
followed by the pushed path. Without a verbatim prefix the base's components come first,
unchanged, and then those of the pushed path, less a leading `.`: the front of an absolute
base stays, and the separator `push` writes, or the one the base ends with, cuts the body
between the two. The one absolute base this fails for is the bare device namespace `\\.\`,
whose name the pushed path becomes.

A rooted path without a prefix is written after the base's prefix alone, and reads back as
that prefix and then the rooted path. A separator at the end of a path that is not a root
adds no component: `unchecked_abs_path` may strip it.
-/

namespace Zuban.Path

/-- A path that `push` writes after the base: no prefix and no root. -/
structure Relative (pf : Platform) (path : List Char) : Prop where
  prefixNone : pf.parsePrefix path = none
  noRoot : hasRoot pf path = false

theorem PlainName.relative {pf : Platform} {name : List Char} (plain : PlainName pf name) :
    Relative pf name :=
  ⟨plain.prefixNone, plain.hasRoot_eq⟩

/-! ## Bodies -/

section Body

variable {sep : Char → Bool} {verbatim : Bool}

/-- Outside a verbatim path a `.` in the body is skipped. -/
theorem bodyComponents_ne_curDir {body : List Char} {c : Component}
    (member : c ∈ bodyComponents sep false body) : c ≠ .curDir := by
  obtain ⟨piece, -, parsed⟩ := List.mem_filterMap.mp member
  unfold parseSingleComponent at parsed
  split at parsed <;> simp at parsed <;> subst parsed <;> simp

/-- Two texts written one after the other with a separator between them, or with one ending
the first, have the pieces of the first and then those of the second. -/
theorem bodyComponents_append_cut {body extra : List Char}
    (cut : body = [] ∨ (∃ front s, body = front ++ [s] ∧ sep s = true) ∨
      ∃ s rest, extra = s :: rest ∧ sep s = true) :
    bodyComponents sep verbatim (body ++ extra) =
      bodyComponents sep verbatim body ++ bodyComponents sep verbatim extra := by
  rcases cut with rfl | ⟨front, s, rfl, isSep⟩ | ⟨s, rest, rfl, isSep⟩
  · simp
  · rw [List.append_assoc, List.singleton_append, bodyComponents_append_cons isSep,
      bodyComponents_append_cons isSep front [], bodyComponents_nil, List.append_nil]
  · rw [bodyComponents_append_cons isSep, ← List.nil_append (s :: rest),
      bodyComponents_append_cons isSep [] rest, bodyComponents_nil, List.nil_append]

/-- What is left of a text that ends with a separator, past any cut, is empty or ends with
it. -/
theorem drop_ends {front : List Char} {s : Char} (isSep : sep s = true) (n : Nat) :
    (front ++ [s]).drop n = [] ∨ ∃ front' s', (front ++ [s]).drop n = front' ++ [s'] ∧
      sep s' = true := by
  rw [List.drop_append_eq_append_drop]
  cases dropped : n - front.length with
  | zero => exact .inr ⟨_, s, rfl, isSep⟩
  | succ k =>
      left
      simp only [List.drop_succ_cons, List.drop_nil, List.append_nil]
      exact List.drop_eq_nil_of_le (by omega)

end Body

namespace Relative

variable {pf : Platform} {path : List Char} (relative : Relative pf path)
include relative

theorem prefixLen_eq : prefixLen pf path = 0 := by
  simp [prefixLen, relative.prefixNone]

theorem prefixVerbatim_eq : prefixVerbatim pf path = false := by
  simp [prefixVerbatim, relative.prefixNone]

theorem isSep_eq : isSep pf path = pf.isSepByte := by
  funext c
  simp [isSep, relative.prefixVerbatim_eq]

theorem isAbsolute_eq : isAbsolute pf path = false := by
  simp [isAbsolute, relative.noRoot]

/-- The body of a relative path, read whole, is its components less a leading `.`. -/
theorem bodyComponents_eq :
    bodyComponents pf.isSepByte false path = (components pf path).filter (· != .curDir) := by
  have physical : hasPhysicalRoot pf path = false := by
    simpa [hasRoot, relative.prefixNone] using relative.noRoot
  have bodyKept : ∀ body, (bodyComponents pf.isSepByte false body).filter (· != .curDir) =
      bodyComponents pf.isSepByte false body := fun body =>
    List.filter_eq_self.mpr fun c member => by simpa using bodyComponents_ne_curDir member
  rw [components, startDir, relative.isSep_eq, relative.prefixVerbatim_eq, relative.prefixLen_eq]
  by_cases cur : includeCurDir pf path
  · obtain ⟨-, rest, dot, boundary⟩ := includeCurDir_split pf path cur
    rw [relative.prefixLen_eq, List.drop_zero] at dot
    subst dot
    simp only [physical, relative.prefixNone, cur, if_true, Bool.false_eq_true, if_false,
      Option.map_none', Option.toList_none, Option.toList_some, List.nil_append,
      List.singleton_append, Nat.zero_add, List.drop_one, List.tail_cons, List.filter_cons,
      bne_self_eq_false, bodyKept]
    exact bodyComponents_dot_cons (by cases pf <;> decide)
      (by simpa [relative.isSep_eq] using boundary)
  · simp [physical, relative.prefixNone, cur, bodyKept]

end Relative

/-! ## The base -/

section Base

variable {pf : Platform} {base : List Char}

theorem lenBeforeBody_le_length (rooted : hasRoot pf base = true)
    (notVerbatim : prefixVerbatim pf base = false) : lenBeforeBody pf base ≤ base.length := by
  have noCur : includeCurDir pf base = false := by simp [includeCurDir, rooted]
  unfold lenBeforeBody
  by_cases physical : hasPhysicalRoot pf base
  · have : prefixLen pf base < base.length := by
      by_contra short
      simp [hasPhysicalRoot, List.drop_eq_nil_of_le (Nat.le_of_not_lt short)] at physical
    simp only [physical, noCur, if_true, Bool.false_eq_true, if_false]
    omega
  · simp [physical, noCur, prefixLen_le_length notVerbatim]

/-- An absolute base that is all prefix, without a verbatim one: a UNC share or a device
namespace, with the root implied, and a bare device namespace if it ends with a separator. -/
theorem prefixOnly (absolute : isAbsolute pf base = true)
    (notVerbatim : prefixVerbatim pf base = false) (body : base.drop (prefixLen pf base) = []) :
    ∃ p, pf.parsePrefix base = some p ∧ p.isVerbatim = false ∧ p.isDrive = false ∧
      (startDir pf base).1 = some .rootDir ∧ hasPhysicalRoot pf base = false ∧
      (base.getLast?.any pf.isSepByte = true → p = .deviceNS []) := by
  have physical : hasPhysicalRoot pf base = false := by simp [hasPhysicalRoot, body]
  have rooted := hasRoot_of_isAbsolute absolute
  cases prefixed : pf.parsePrefix base with
  | none => simp [hasRoot, physical, prefixed] at rooted
  | some p =>
      have verbatim : p.isVerbatim = false := by simpa [prefixVerbatim, prefixed] using notVerbatim
      have notDrive : p.isDrive = false := by
        simpa [hasRoot, physical, prefixed, Prefix.hasImplicitRoot] using rooted
      refine ⟨p, rfl, verbatim, notDrive, by
        simp [startDir, physical, prefixed, Prefix.hasImplicitRoot, notDrive, verbatim],
        physical, fun ends => ?_⟩
      cases pf with
      | unix => cases prefixed
      | windows =>
          cases last : base.getLast? with
          | none => simp [last] at ends
          | some c =>
          have isSep : Windows.isSepByte c = true := by simpa [last, Platform.isSepByte] using ends
          have whole : base.length ≤ p.len := by
            simpa [prefixLen, prefixed] using List.drop_eq_nil_iff.mp body
          obtain ⟨name, rfl⟩ := Windows.parsePrefix_ends_sep prefixed verbatim whole last isSep
          obtain ⟨tail, -, lengths, split⟩ := Windows.parsePrefix_deviceNS_split prefixed
          have noTail : tail = [] := by
            have total := congrArg List.length split
            rw [List.length_append] at total
            exact List.eq_nil_of_length_eq_zero (by omega)
          rw [noTail, List.append_nil] at split
          cases name using List.reverseRecOn with
          | nil => rfl
          | append_singleton name x =>
              have free := (Windows.parsePrefix_eq_deviceNS prefixed).2.2.2 ▸
                Windows.parseNextComponent_sepFree' (base.drop 4)
              rw [split, ← List.append_assoc, List.getLast?_append_of_ne_nil _ (by simp)] at last
              simp only [List.getLast?_singleton, Option.some.injEq] at last
              subst last
              simp [free x (by simp)] at isSep

/-- Writing more after an absolute base, with a separator between them, adds the components of
what is written to those of the base; without a verbatim prefix, and unless the base is a bare
device namespace. -/
theorem components_append (absolute : isAbsolute pf base = true)
    (notVerbatim : prefixVerbatim pf base = false)
    (notDevice : pf.parsePrefix base ≠ some (.deviceNS [])) {extra : List Char}
    (cut : (∃ front s, base = front ++ [s] ∧ pf.isSepByte s = true) ∨
      ∃ s rest, extra = s :: rest ∧ pf.isSepByte s = true) :
    components pf (base ++ extra) =
      components pf base ++ bodyComponents pf.isSepByte false extra := by
  have rooted := hasRoot_of_isAbsolute absolute
  have sepOf : isSep pf base = pf.isSepByte := by funext c; simp [isSep, notVerbatim]
  by_cases body : base.drop (prefixLen pf base) = []
  · obtain ⟨p, prefixed, verbatim, notDrive, implied, physical, bareDevice⟩ :=
      prefixOnly absolute notVerbatim body
    obtain ⟨s, rest, rfl, separator⟩ :
        ∃ s rest, extra = s :: rest ∧ pf.isSepByte s = true := by
      rcases cut with ⟨front, s, rfl, separator⟩ | written
      · exact absurd (bareDevice (by simp [separator]) ▸ prefixed) notDevice
      · exact written
    have whole : base.length = prefixLen pf base :=
      Nat.le_antisymm (List.drop_eq_nil_iff.mp body) (prefixLen_le_length notVerbatim)
    obtain ⟨prefixed', physical'⟩ :=
      front_append absolute notVerbatim (show (s :: rest).head?.any pf.isSepByte = true by
        simp [separator])
    rw [List.take_of_length_le whole.le] at prefixed' physical'
    have noCur : includeCurDir pf (base ++ s :: rest) = false := by
      simp [includeCurDir, hasRoot, physical']
    have noCur' : includeCurDir pf base = false := by simp [includeCurDir, rooted]
    have sepOf' : isSep pf (base ++ s :: rest) = pf.isSepByte := by
      funext c
      simp [isSep, prefixVerbatim, prefixed', prefixed, verbatim]
    have dropped : (base ++ s :: rest).drop (base.length + 1) = rest := by
      rw [show base ++ s :: rest = (base ++ [s]) ++ rest by simp, List.drop_left' (by simp)]
    rw [components_eq_back pf (base ++ s :: rest), components_eq_back pf base, sepOf', sepOf,
      ← List.nil_append (s :: rest),
      @bodyComponents_append_cons pf.isSepByte false s separator [] rest]
    simp only [startDir, lenBeforeBody, physical, physical', noCur, noCur', prefixed, prefixed',
      prefixLen_congr prefixed', prefixVerbatim, Prefix.hasImplicitRoot, notDrive, verbatim,
      if_true, if_false, Bool.false_eq_true, Bool.not_false, Bool.and_self, Nat.add_zero,
      ← whole, List.drop_length, bodyComponents_nil, List.append_nil, List.nil_append, dropped,
      Option.map_some', Option.getD_some]
  · have same := sameFront_append absolute notVerbatim body extra
    have cut' : base.drop (lenBeforeBody pf base) = [] ∨
        (∃ front s, base.drop (lenBeforeBody pf base) = front ++ [s] ∧
          pf.isSepByte s = true) ∨
        ∃ s rest, extra = s :: rest ∧ pf.isSepByte s = true := by
      rcases cut with ⟨front, s, split, isSep⟩ | written
      · rw [split]
        exact (drop_ends isSep _).imp_right .inl
      · exact .inr (.inr written)
    rw [components_eq_back pf (base ++ extra), components_eq_back pf base, same.prefixed,
      same.startDir_eq rooted, same.isSep_eq, same.prefixVerbatim_eq, same.lenBeforeBody_eq rooted,
      List.drop_append_of_le_length (lenBeforeBody_le_length rooted notVerbatim), sepOf,
      notVerbatim, bodyComponents_append_cut cut']
    simp only [List.append_assoc]

/-- A separator written at the end adds no component. -/
theorem components_append_concat (absolute : isAbsolute pf base = true)
    (notVerbatim : prefixVerbatim pf base = false)
    (notDevice : pf.parsePrefix base ≠ some (.deviceNS [])) {extra : List Char}
    (cut : (∃ front s, base = front ++ [s] ∧ pf.isSepByte s = true) ∨
      ∃ s rest, extra = s :: rest ∧ pf.isSepByte s = true)
    {c : Char} (separator : pf.isSepByte c = true) :
    components pf (base ++ (extra ++ [c])) = components pf (base ++ extra) := by
  have cut' : (∃ front s, base = front ++ [s] ∧ pf.isSepByte s = true) ∨
      ∃ s rest, extra ++ [c] = s :: rest ∧ pf.isSepByte s = true := by
    rcases cut with ends | ⟨s, rest, rfl, isSep⟩
    · exact .inl ends
    · exact .inr ⟨s, rest ++ [c], rfl, isSep⟩
  have lastPiece : bodyComponents pf.isSepByte false [c] = [] := by
    simpa using @bodyComponents_append_cons pf.isSepByte false c separator [] []
  rw [components_append absolute notVerbatim notDevice cut',
    components_append absolute notVerbatim notDevice cut,
    bodyComponents_append_cut (.inr (.inr ⟨c, [], rfl, separator⟩)), lastPiece, List.append_nil]

end Base

/-! ## `Path::join` -/

section Join

variable {pf : Platform} {base path : List Char}

/-- A relative path pushed onto an absolute base without a verbatim prefix is written after it,
with a separator in between or after the separator the base ends with. -/
theorem push_relative (absolute : isAbsolute pf base = true)
    (notVerbatim : prefixVerbatim pf base = false) (relative : Relative pf path) :
    push pf base path = base ++ pf.mainSeparator :: path ∨
      push pf base path = base ++ path ∧
        ∃ front s, base = front ++ [s] ∧ pf.isSepByte s = true := by
  rcases push_of_notVerbatim notVerbatim path with
    ⟨-, replaced⟩ | ⟨-, -, rooted, -⟩ |
      ⟨-, -, -, ⟨-, written⟩ | ⟨needs, written⟩⟩
  · simp [relative.isAbsolute_eq, relative.prefixNone] at replaced
  · simp [relative.noRoot] at rooted
  · exact .inl written
  · exact .inr ⟨written, needSep_false absolute needs⟩

/-- `Path::join` of a relative path onto an absolute base, read back: the base's components,
then the joined path's less a leading `.`; without a verbatim prefix, and unless the base is a
bare device namespace. -/
theorem components_join (absolute : isAbsolute pf base = true)
    (notVerbatim : prefixVerbatim pf base = false)
    (notDevice : pf.parsePrefix base ≠ some (.deviceNS [])) (relative : Relative pf path) :
    components pf (join pf base path) =
      components pf base ++ (components pf path).filter (· != .curDir) := by
  rw [← relative.bodyComponents_eq, join]
  rcases push_relative absolute notVerbatim relative with written | ⟨written, ends⟩
  · rw [written, components_append absolute notVerbatim notDevice
      (.inr ⟨_, _, rfl, pf.isSepByte_mainSeparator⟩),
      ← List.nil_append (pf.mainSeparator :: path),
      bodyComponents_append_cons pf.isSepByte_mainSeparator, bodyComponents_nil, List.nil_append]
  · rw [written, components_append absolute notVerbatim notDevice (.inl ends)]

end Join

/-! ## A separator at the end -/

section Trailing

variable {pf : Platform} {front : List Char} {s : Char}

theorem isSepByte_of_isSep {path : List Char} {c : Char} (separator : isSep pf path c = true) :
    pf.isSepByte c = true := by
  cases pf with
  | unix => simpa [isSep, prefixVerbatim, Platform.parsePrefix] using separator
  | windows =>
      unfold isSep at separator
      split at separator
      · simp only [Windows.isVerbatimSep, decide_eq_true_eq] at separator
        subst separator
        rfl
      · exact separator

/-- Past its prefix, a path that ends with a separator and is not a root holds two characters
at least: one alone would be its root. -/
theorem prefixLen_add_two_le (notRoot : isRoot pf (front ++ [s]) = false)
    (separator : isSep pf (front ++ [s]) s = true) :
    prefixLen pf (front ++ [s]) + 2 ≤ (front ++ [s]).length := by
  by_contra short
  have long : front.length ≤ prefixLen pf (front ++ [s]) := by simp at short; omega
  have rest : (front ++ [s]).drop (prefixLen pf (front ++ [s])) =
      [s].drop (prefixLen pf (front ++ [s]) - front.length) := by
    rw [List.drop_append_eq_append_drop, List.drop_eq_nil_of_le long, List.nil_append]
  have root : isRoot pf (front ++ [s]) = true := by
    rw [isRoot_iff, lenBeforeBody]
    cases gap : prefixLen pf (front ++ [s]) - front.length with
    | zero =>
        have physical : hasPhysicalRoot pf (front ++ [s]) = true := by
          simp [hasPhysicalRoot, rest, gap, isSepByte_of_isSep separator]
        have noCur : includeCurDir pf (front ++ [s]) = false := by
          simp [includeCurDir, hasRoot, physical]
        refine ⟨startDir_ne_curDir (by simp [hasRoot, physical]), ?_⟩
        simp only [physical, noCur, if_true, Bool.false_eq_true, if_false, Nat.add_zero]
        rw [← List.drop_drop, rest, gap]
        simp
    | succ k =>
        have empty : (front ++ [s]).drop (prefixLen pf (front ++ [s])) = [] := by simp [rest, gap]
        have physical : hasPhysicalRoot pf (front ++ [s]) = false := by
          simp [hasPhysicalRoot, empty]
        have noCur : includeCurDir pf (front ++ [s]) = false := by simp [includeCurDir, empty]
        refine ⟨?_, by simp [physical, noCur, empty]⟩
        unfold startDir
        split
        · simp
        · split <;> simp [noCur]
  simp [root] at notRoot

/-- A separator at the end of a path that is not a root adds no component; for a Windows path
with a prefix. -/
theorem components_concat_separator
    (windowsPrefixed : pf = .windows → (pf.parsePrefix (front ++ [s])).isSome = true)
    (notRoot : isRoot pf (front ++ [s]) = false) (separator : isSep pf (front ++ [s]) s = true) :
    components pf (front ++ [s]) = components pf front := by
  have long := prefixLen_add_two_le notRoot separator
  have prefixed : pf.parsePrefix front = pf.parsePrefix (front ++ [s]) := by
    cases pf with
    | unix => rfl
    | windows =>
        obtain ⟨p, parsed⟩ := Option.isSome_iff_exists.mp (windowsPrefixed rfl)
        have taken : front.length ≥ p.len := by
          simp only [prefixLen, parsed, Option.map_some', Option.getD_some, List.length_append,
            List.length_singleton] at long
          omega
        have kept := Windows.parsePrefix_take parsed taken
        rw [List.take_left] at kept
        exact kept.trans parsed.symm
  have lengths := prefixLen_congr prefixed
  obtain ⟨c, rest, body⟩ :
      ∃ c rest, front.drop (prefixLen pf (front ++ [s])) = c :: rest :=
    List.exists_cons_of_ne_nil (by simp at long ⊢; omega)
  have split : (front ++ [s]).drop (prefixLen pf (front ++ [s])) = c :: (rest ++ [s]) := by
    rw [List.drop_append_of_le_length (by simp at long; omega), body, List.cons_append]
  have same : SameFront pf (front ++ [s]) front := ⟨prefixed, by
    rw [hasPhysicalRoot_eq_head, hasPhysicalRoot_eq_head, lengths, split, body]; rfl⟩
  have cur : includeCurDir pf front = includeCurDir pf (front ++ [s]) := by
    unfold includeCurDir
    rw [same.hasRoot_eq, same.isSep_eq, lengths, split, body]
    cases rest <;> by_cases dot : c = '.' <;> simp [dot, separator]
  have start : startDir pf front = startDir pf (front ++ [s]) := by
    simp only [startDir, same.physical, prefixed, cur]
  have step : (startDir pf (front ++ [s])).2 ≤ 1 := by
    unfold startDir
    split
    · simp
    · split
      · simp
      · split <;> simp
  rw [components, components, start, prefixed, same.isSep_eq, same.prefixVerbatim_eq, lengths,
    List.drop_append_of_le_length (by simp at long; omega),
    bodyComponents_append_cons separator _ [],
    bodyComponents_nil, List.append_nil]

end Trailing

/-! ## A rooted path -/

section Rooted

variable {pf : Platform} {base path : List Char}

/-- A rooted path without a prefix starts with a separator. -/
theorem rooted_cons (prefixNone : pf.parsePrefix path = none) (rooted : hasRoot pf path = true) :
    ∃ c rest, path = c :: rest ∧ pf.isSepByte c = true := by
  cases path with
  | nil => simp [hasRoot, hasPhysicalRoot, prefixNone] at rooted
  | cons c rest =>
      exact ⟨c, rest, rfl, by
        simpa [hasRoot, hasPhysicalRoot, prefixLen, prefixNone] using rooted⟩

theorem parsePrefix_take_append_rooted {p : Prefix} (parsed : Windows.parsePrefix base = some p)
    (notVerbatim : p.isVerbatim = false) (prefixNone : Platform.windows.parsePrefix path = none)
    (rooted : hasRoot .windows path = true) :
    Windows.parsePrefix (base.take p.len ++ path) = some p := by
  obtain ⟨c, rest, rfl, separator⟩ := rooted_cons prefixNone rooted
  exact Windows.parsePrefix_take_append parsed notVerbatim
    (.inr (by simpa [Windows.Boundary, Platform.isSepByte] using separator))

/-- A rooted path without a prefix, written after a prefix: that prefix, then the components of
the rooted path. -/
theorem components_take_append {p : Prefix} (parsed : pf.parsePrefix base = some p)
    (notVerbatim : p.isVerbatim = false) (prefixNone : pf.parsePrefix path = none)
    (rooted : hasRoot pf path = true) :
    components pf (base.take p.len ++ path) = .prefixComponent p :: components pf path := by
  cases pf with
  | unix => cases parsed
  | windows =>
      obtain ⟨c, rest, rfl, separator⟩ := rooted_cons prefixNone rooted
      have parsed' := parsePrefix_take_append_rooted parsed notVerbatim prefixNone rooted
      have lengths : (base.take p.len).length = p.len := by
        simp [Windows.parsePrefix_len_le parsed notVerbatim]
      have dropped : (base.take p.len ++ c :: rest).drop p.len = c :: rest :=
        List.drop_left' lengths
      have prefixNone' : Windows.parsePrefix (c :: rest) = none := prefixNone
      have separator' : Windows.isSepByte c = true := separator
      have sepOf : isSep .windows (base.take p.len ++ c :: rest) = isSep .windows (c :: rest) := by
        funext x
        simp [isSep, prefixVerbatim, Platform.parsePrefix, parsed', prefixNone', notVerbatim]
      simp [components, startDir, hasPhysicalRoot, prefixLen, prefixVerbatim, sepOf,
        Platform.parsePrefix, parsed', prefixNone', notVerbatim, dropped, separator, separator',
        ← List.drop_drop]

/-- `Path::join` of a rooted path without a prefix: the base's prefix, if any, and then the
rooted path; for a base without a verbatim prefix. -/
theorem components_join_rooted (notVerbatim : prefixVerbatim pf base = false)
    (prefixNone : pf.parsePrefix path = none) (rooted : hasRoot pf path = true) :
    components pf (join pf base path) =
      ((pf.parsePrefix base).map .prefixComponent).toList ++ components pf path := by
  rcases push_of_notVerbatim notVerbatim path with
    ⟨written, absolute | prefixed⟩ | ⟨-, -, -, written⟩ | ⟨-, -, noRoot, -⟩
  · cases pf with
    | unix => simp [join, written, Platform.parsePrefix]
    | windows => simp [isAbsolute, prefixNone] at absolute
  · simp [prefixNone] at prefixed
  · rw [join, written]
    cases parsed : pf.parsePrefix base with
    | none => simp [prefixLen, parsed]
    | some p =>
        have verbatim : p.isVerbatim = false := by simpa [prefixVerbatim, parsed] using notVerbatim
        simpa [prefixLen, parsed] using components_take_append parsed verbatim prefixNone rooted
  · simp [rooted] at noRoot

/-- `Path::join` of a rooted path without a prefix keeps the base's prefix; for a base without
a verbatim prefix. -/
theorem parsePrefix_join_rooted (notVerbatim : prefixVerbatim pf base = false)
    (prefixNone : pf.parsePrefix path = none) (rooted : hasRoot pf path = true) :
    pf.parsePrefix (join pf base path) = pf.parsePrefix base := by
  cases pf with
  | unix => rfl
  | windows =>
      have relative : isAbsolute .windows path = false := by simp [isAbsolute, prefixNone]
      rw [join, push, if_neg (by simp [relative, prefixNone]), if_neg (by simp [notVerbatim]),
        if_pos rooted]
      cases parsed : Platform.windows.parsePrefix base with
      | none => simpa [prefixLen, parsed] using prefixNone
      | some p =>
          have verbatim : p.isVerbatim = false := by
            simpa [prefixVerbatim, parsed] using notVerbatim
          simpa [prefixLen, parsed] using
            parsePrefix_take_append_rooted parsed verbatim prefixNone rooted

end Rooted

/-! ## Resolving a path against a directory -/

def Component.isPrefixComponent : Component → Bool
  | .prefixComponent _ => true
  | _ => false

/-- The components of `path` taken from the directory with components `dir`: a path with a
prefix stands alone, a rooted one keeps the prefix of `dir`, and any other goes on from `dir`
with its `.` dropped. No `..` is resolved: `Path::join` does not look at the file system. -/
def resolveComponents (dir : List Component) : List Component → List Component
  | .prefixComponent p :: rest => .prefixComponent p :: rest
  | .rootDir :: rest => dir.filter Component.isPrefixComponent ++ .rootDir :: rest
  | path => dir ++ path.filter (· != .curDir)

section Resolve

variable {pf : Platform} {base path : List Char} (dir : List Component)

theorem filter_isPrefixComponent_components :
    (components pf path).filter Component.isPrefixComponent =
      ((pf.parsePrefix path).map .prefixComponent).toList := by
  have body : (bodyComponents (isSep pf path) (prefixVerbatim pf path)
      (path.drop (prefixLen pf path + (startDir pf path).2))).filter Component.isPrefixComponent =
        [] :=
    List.filter_eq_nil_iff.mpr fun c member => by
      have := mem_bodyComponents_not_rootPart member
      cases c <;> simp_all [Component.isRootPart, Component.isPrefixComponent]
  rw [components, List.filter_append, List.filter_append, body, List.append_nil]
  rcases startDir_fst pf path with start | start | start <;>
    cases pf.parsePrefix path <;> simp [start, Component.isPrefixComponent]

theorem resolveComponents_of_prefixed {p : Prefix} (parsed : pf.parsePrefix path = some p) :
    resolveComponents dir (components pf path) = components pf path := by
  simp [components, parsed, resolveComponents]

theorem resolveComponents_of_rooted (prefixNone : pf.parsePrefix path = none)
    (rooted : hasRoot pf path = true) :
    resolveComponents dir (components pf path) =
      dir.filter Component.isPrefixComponent ++ components pf path := by
  have physical : hasPhysicalRoot pf path = true := by simpa [hasRoot, prefixNone] using rooted
  simp [components, startDir, physical, prefixNone, resolveComponents]

theorem resolveComponents_of_relative (relative : Relative pf path) :
    resolveComponents dir (components pf path) =
      dir ++ (components pf path).filter (· != .curDir) := by
  have physical : hasPhysicalRoot pf path = false := by
    simpa [hasRoot, relative.prefixNone] using relative.noRoot
  have front : ∀ c ∈ (components pf path).head?, c.isRootPart = false := by
    intro c member
    rw [components, relative.prefixNone] at member
    by_cases cur : includeCurDir pf path
    · simp [startDir, physical, relative.prefixNone, cur] at member
      simp [← member, Component.isRootPart]
    · simp only [startDir, physical, relative.prefixNone, cur] at member
      simpa using mem_bodyComponents_not_rootPart (List.mem_of_mem_head? member)
  generalize components pf path = comps at front
  cases comps with
  | nil => rfl
  | cons c rest => cases c <;> simp_all [resolveComponents, Component.isRootPart]

/-- `Path::join` read back: the pushed path's components resolved against the base's; for an
absolute base without a verbatim prefix that is not a bare device namespace. -/
theorem components_join_resolve (absolute : isAbsolute pf base = true)
    (notVerbatim : prefixVerbatim pf base = false)
    (notDevice : pf.parsePrefix base ≠ some (.deviceNS [])) :
    components pf (join pf base path) =
      resolveComponents (components pf base) (components pf path) := by
  cases prefixed : pf.parsePrefix path with
  | some p =>
      rw [resolveComponents_of_prefixed _ prefixed, join, push, if_pos (by simp [prefixed])]
  | none =>
      cases rooted : hasRoot pf path with
      | true =>
          rw [resolveComponents_of_rooted _ prefixed rooted, filter_isPrefixComponent_components,
            components_join_rooted notVerbatim prefixed rooted]
      | false =>
          rw [resolveComponents_of_relative _ ⟨prefixed, rooted⟩,
            components_join absolute notVerbatim notDevice ⟨prefixed, rooted⟩]

end Resolve

end Zuban.Path
