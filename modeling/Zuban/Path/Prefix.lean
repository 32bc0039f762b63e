import Mathlib.Data.List.Basic

/-!
# Windows path prefixes

Every `Path` query of the `VfsHandler` defaults goes through `Path::components`, which on
Windows first recognises a prefix: a drive (`C:`), a UNC share (`\\server\share`), a device
(`\\.\COM1`) or one of the verbatim forms (`\\?\...`). This is `parse_prefix` of
`std::sys::path::windows`.

Paths are lists of characters. The parser only compares ASCII bytes and only cuts next to
them, so its byte offsets are character offsets here.
-/

namespace Zuban.Path

/-- `std::path::Prefix`. Drive letters are kept upper-cased, as `parse_drive` returns them. -/
inductive Prefix where
  | verbatim (name : List Char)
  | verbatimUNC (server share : List Char)
  | verbatimDisk (drive : Char)
  | deviceNS (name : List Char)
  | unc (server share : List Char)
  | disk (drive : Char)
  deriving DecidableEq, Repr

namespace Prefix

/-- `Prefix::len`: how many bytes the prefix takes at the start of its path. -/
def len : Prefix → Nat
  | verbatim name => 4 + name.length
  | verbatimUNC server share =>
      8 + server.length + if 0 < share.length then 1 + share.length else 0
  | verbatimDisk _ => 6
  | deviceNS name => 4 + name.length
  | unc server share => 2 + server.length + if 0 < share.length then 1 + share.length else 0
  | disk _ => 2

def isVerbatim : Prefix → Bool
  | verbatim _ | verbatimUNC _ _ | verbatimDisk _ => true
  | _ => false

def isDrive : Prefix → Bool
  | disk _ => true
  | _ => false

def hasImplicitRoot (p : Prefix) : Bool := !p.isDrive

end Prefix

namespace Windows

/-- `is_sep_byte` on Windows. -/
def isSepByte (c : Char) : Bool := c = '/' || c = '\\'

/-- `is_verbatim_sep`: a verbatim path only knows the backslash. -/
def isVerbatimSep (c : Char) : Bool := c = '\\'

/-- The separator `parse_next_component` splits at. -/
def separatorOf (verbatim : Bool) (c : Char) : Bool :=
  if verbatim then isVerbatimSep c else isSepByte c

/-- `parse_next_component`: the text before the first separator, and the text after it. -/
def parseNextComponent (verbatim : Bool) : List Char → List Char × List Char
  | [] => ([], [])
  | c :: rest =>
      if separatorOf verbatim c then ([], rest)
      else (c :: (parseNextComponent verbatim rest).1, (parseNextComponent verbatim rest).2)

def parseDrive : List Char → Option Char
  | drive :: ':' :: _ => if drive.isAlpha then some drive.toUpper else none
  | _ => none

def parseDriveExact (path : List Char) : Option Char :=
  if path[2]?.all isVerbatimSep then parseDrive path else none

/-- The bytes `PrefixParser` compares: the first eight of the path, with `/` read as `\`. -/
def prefixView (path : List Char) : List Char :=
  (path.take 8).map fun c => if c = '/' then '\\' else c

/-- `PrefixParserSlice::strip_prefix` at `index`: whether the compared bytes go on with
`pattern`. -/
def viewHas (path : List Char) (index : Nat) (pattern : List Char) : Bool :=
  ((prefixView path).drop index).take pattern.length = pattern

/-- `parse_prefix`. A verbatim `\\?\` must be written with backslashes; every other prefix
accepts `/` as well. -/
def parsePrefix (path : List Char) : Option Prefix :=
  if viewHas path 0 ['\\', '\\'] then
    if viewHas path 2 ['?', '\\'] ∧ '/' ∉ path.take 4 then
      if viewHas path 4 ['U', 'N', 'C', '\\'] then
        let server := parseNextComponent true (path.drop 8)
        some (.verbatimUNC server.1 (parseNextComponent true server.2).1)
      else
        match parseDriveExact (path.drop 4) with
        | some drive => some (.verbatimDisk drive)
        | none => some (.verbatim (parseNextComponent true (path.drop 4)).1)
    else if viewHas path 2 ['.', '\\'] then
      some (.deviceNS (parseNextComponent false (path.drop 4)).1)
    else
      let server := parseNextComponent false (path.drop 2)
      let share := (parseNextComponent false server.2).1
      if server.1 ≠ [] ∧ share ≠ [] then some (.unc server.1 share) else none
  else (parseDrive path).map .disk

/-! ## What a prefix depends on -/

/-- Text that can follow a prefix without changing it: nothing, or a separator first. -/
def Boundary (rest : List Char) : Bool := rest.head?.all isSepByte

@[simp] theorem separatorOf_false (c : Char) : separatorOf false c = isSepByte c := rfl

theorem parseNextComponent_fst_sepFree (verbatim : Bool) :
    ∀ (text : List Char), ∀ c ∈ (parseNextComponent verbatim text).1,
      separatorOf verbatim c = false
  | [] => by simp [parseNextComponent]
  | x :: text => by
      unfold parseNextComponent
      split
      · simp
      · rename_i isSep
        simpa [isSep] using parseNextComponent_fst_sepFree verbatim text

theorem parseNextComponent_split (verbatim : Bool) :
    ∀ text : List Char,
      (text = (parseNextComponent verbatim text).1 ∧
        (parseNextComponent verbatim text).2 = []) ∨
      ∃ s, separatorOf verbatim s = true ∧
        text = (parseNextComponent verbatim text).1 ++ s :: (parseNextComponent verbatim text).2
  | [] => by simp [parseNextComponent]
  | x :: text => by
      unfold parseNextComponent
      split
      · exact .inr ⟨x, ‹_›, rfl⟩
      · rcases parseNextComponent_split verbatim text with
          ⟨whole, empty⟩ | ⟨s, isSep, split⟩
        · exact .inl ⟨by simp [← whole], empty⟩
        · exact .inr ⟨s, isSep, by simp [← split]⟩

theorem parseNextComponent_append_cons {verbatim : Bool} {name : List Char}
    (free : ∀ c ∈ name, separatorOf verbatim c = false) {s : Char}
    (isSep : separatorOf verbatim s = true) (rest : List Char) :
    parseNextComponent verbatim (name ++ s :: rest) = (name, rest) := by
  induction name with
  | nil => simp [parseNextComponent, isSep]
  | cons x name inductionHypothesis =>
      simp only [List.mem_cons, forall_eq_or_imp] at free
      simp [parseNextComponent, free.1, inductionHypothesis free.2]

theorem parseNextComponent_of_sepFree {verbatim : Bool} {name : List Char}
    (free : ∀ c ∈ name, separatorOf verbatim c = false) :
    parseNextComponent verbatim name = (name, []) := by
  induction name with
  | nil => rfl
  | cons x name inductionHypothesis =>
      simp only [List.mem_cons, forall_eq_or_imp] at free
      simp [parseNextComponent, free.1, inductionHypothesis free.2]

/-- A component ended by a boundary is read back whole. -/
theorem parseNextComponent_append_boundary {name rest : List Char}
    (free : ∀ c ∈ name, isSepByte c = false) (boundary : Boundary rest) :
    (parseNextComponent false (name ++ rest)).1 = name := by
  match rest, boundary with
  | [], _ => simp [@parseNextComponent_of_sepFree false _ (by simpa using free)]
  | s :: rest, isSep =>
      rw [parseNextComponent_append_cons (by simpa using free) (by simpa [Boundary] using isSep)]

theorem take_drop_take {path : List Char} {index k n : Nat} (within : index + k ≤ n) :
    ((path.take n).drop index).take k = (path.drop index).take k := by
  rw [List.drop_take, List.take_take, Nat.min_eq_left (by omega)]

/-- `PrefixParser` sees no further than `index + pattern.length` bytes. -/
theorem viewHas_take {path : List Char} {index n : Nat} {pattern : List Char}
    (within : index + pattern.length ≤ n) (small : n ≤ 8) :
    viewHas (path.take n) index pattern = viewHas path index pattern := by
  simp only [viewHas, prefixView, ← List.map_drop, ← List.map_take,
    take_drop_take (show index + pattern.length ≤ 8 by omega), take_drop_take within]

theorem viewHas_congr {path other : List Char} {index n : Nat} {pattern : List Char}
    (same : path.take n = other.take n) (within : index + pattern.length ≤ n) (small : n ≤ 8) :
    viewHas path index pattern = viewHas other index pattern := by
  rw [← viewHas_take within small, same, viewHas_take within small]

/-! ## Inverting `parse_prefix` -/

theorem parsePrefix_eq_unc {path : List Char} {server share : List Char}
    (parsed : parsePrefix path = some (.unc server share)) :
    viewHas path 0 ['\\', '\\'] = true ∧
      ¬(viewHas path 2 ['?', '\\'] = true ∧ '/' ∉ path.take 4) ∧
      viewHas path 2 ['.', '\\'] = false ∧
      (parseNextComponent false (path.drop 2)).1 = server ∧
      (parseNextComponent false (parseNextComponent false (path.drop 2)).2).1 = share ∧
      server ≠ [] ∧ share ≠ [] := by
  unfold parsePrefix at parsed
  split_ifs at parsed with h1 h2 h3 h4
  all_goals first | (split at parsed <;> simp at parsed) | skip
  all_goals simp at parsed
  obtain ⟨⟨nonempty, nonempty'⟩, rfl, rfl⟩ := parsed
  exact ⟨h1, h2, by simpa using h4, rfl, rfl, nonempty, nonempty'⟩

theorem parsePrefix_eq_deviceNS {path name : List Char}
    (parsed : parsePrefix path = some (.deviceNS name)) :
    viewHas path 0 ['\\', '\\'] = true ∧
      ¬(viewHas path 2 ['?', '\\'] = true ∧ '/' ∉ path.take 4) ∧
      viewHas path 2 ['.', '\\'] = true ∧ (parseNextComponent false (path.drop 4)).1 = name := by
  unfold parsePrefix at parsed
  split_ifs at parsed with h1 h2 h3 h4
  all_goals first | (split at parsed <;> simp at parsed) | skip
  all_goals simp at parsed
  exact ⟨h1, h2, h4, parsed⟩

theorem parsePrefix_eq_disk {path : List Char} {drive : Char}
    (parsed : parsePrefix path = some (.disk drive)) :
    viewHas path 0 ['\\', '\\'] = false ∧ parseDrive path = some drive := by
  unfold parsePrefix at parsed
  split_ifs at parsed with h1 h2 h3 h4
  all_goals first | (split at parsed <;> simp at parsed) | simp_all

theorem parseDrive_eq_some {path : List Char} {drive : Char}
    (parsed : parseDrive path = some drive) :
    ∃ letter tail, path = letter :: ':' :: tail ∧ letter.isAlpha = true ∧
      drive = letter.toUpper := by
  unfold parseDrive at parsed
  split at parsed
  · split_ifs at parsed with alpha
    exact ⟨_, _, rfl, alpha, (Option.some.inj parsed).symm⟩
  · cases parsed

theorem length_le_of_viewHas {path : List Char} {index : Nat} {pattern : List Char}
    (has : viewHas path index pattern = true) (nonempty : pattern ≠ [])
    (small : index + pattern.length ≤ 8) :
    index + pattern.length ≤ path.length := by
  have lengths := congrArg List.length (of_decide_eq_true has)
  simp only [prefixView, List.length_take, List.length_drop, List.length_map,
    Nat.min_def] at lengths
  have := List.length_pos.mpr nonempty
  split_ifs at lengths <;> omega

theorem parseNextComponent_boundary (text : List Char) :
    ∃ tail, text = (parseNextComponent false text).1 ++ tail ∧ Boundary tail = true := by
  rcases parseNextComponent_split false text with ⟨whole, _⟩ | ⟨s, isSep, split⟩
  · exact ⟨[], by simpa using whole, rfl⟩
  · exact ⟨s :: _, by simpa using split, by simpa [Boundary] using isSep⟩

theorem parseNextComponent_sepFree' (text : List Char) :
    ∀ c ∈ (parseNextComponent false text).1, isSepByte c = false := by
  simpa using parseNextComponent_fst_sepFree false text

/-- A UNC prefix is two separators, the server, a separator and the share; a boundary follows. -/
theorem parsePrefix_unc_split {path server share : List Char}
    (parsed : parsePrefix path = some (.unc server share)) :
    ∃ s tail, isSepByte s = true ∧ Boundary tail = true ∧
      (path.take 2 ++ server ++ s :: share).length = (Prefix.unc server share).len ∧
      path = (path.take 2 ++ server ++ s :: share) ++ tail := by
  obtain ⟨doubleSep, -, -, rfl, rfl, -, nonempty⟩ := parsePrefix_eq_unc parsed
  have long : 2 ≤ path.length := by simpa using length_le_of_viewHas doubleSep (by simp) (by simp)
  obtain ⟨tail, shareSplit, boundary⟩ :=
    parseNextComponent_boundary (parseNextComponent false (path.drop 2)).2
  rcases parseNextComponent_split false (path.drop 2) with ⟨_, empty⟩ | ⟨s, isSep, split⟩
  · simp [empty, parseNextComponent] at nonempty
  · refine ⟨s, tail, by simpa using isSep, boundary, ?_, ?_⟩
    · simp [Prefix.len, List.length_pos.mpr nonempty]
      omega
    · rw [shareSplit] at split
      conv_lhs => rw [← List.take_append_drop 2 path, split]
      simp

theorem parsePrefix_deviceNS_split {path name : List Char}
    (parsed : parsePrefix path = some (.deviceNS name)) :
    ∃ tail, Boundary tail = true ∧ (path.take 4 ++ name).length = (Prefix.deviceNS name).len ∧
      path = (path.take 4 ++ name) ++ tail := by
  obtain ⟨-, -, device, rfl⟩ := parsePrefix_eq_deviceNS parsed
  have long : 4 ≤ path.length := by simpa using length_le_of_viewHas device (by simp) (by simp)
  obtain ⟨tail, nameSplit, boundary⟩ := parseNextComponent_boundary (path.drop 4)
  refine ⟨tail, boundary, by simp [Prefix.len]; omega, ?_⟩
  conv_lhs => rw [← List.take_append_drop 4 path, nameSplit]
  simp

/-- Two paths that agree on their first four bytes take the same branch of `parse_prefix`. -/
theorem parsePrefix_branch_congr {path other : List Char} (same : path.take 4 = other.take 4) :
    viewHas path 0 ['\\', '\\'] = viewHas other 0 ['\\', '\\'] ∧
      ((viewHas path 2 ['?', '\\'] = true ∧ '/' ∉ path.take 4) ↔
        (viewHas other 2 ['?', '\\'] = true ∧ '/' ∉ other.take 4)) ∧
      viewHas path 2 ['.', '\\'] = viewHas other 2 ['.', '\\'] := by
  refine ⟨viewHas_congr same (by simp) (by simp), ?_, viewHas_congr same (by simp) (by simp)⟩
  rw [viewHas_congr same (by simp) (by simp), same]

theorem parsePrefix_take_append {path rest : List Char} {p : Prefix}
    (parsed : parsePrefix path = some p) (notVerbatim : p.isVerbatim = false)
    (boundary : p.isDrive = true ∨ Boundary rest = true) :
    parsePrefix (path.take p.len ++ rest) = some p := by
  cases p with
  | verbatim | verbatimUNC | verbatimDisk => simp [Prefix.isVerbatim] at notVerbatim
  | disk drive =>
      obtain ⟨notDouble, driveParsed⟩ := parsePrefix_eq_disk parsed
      obtain ⟨letter, tail, rfl, alpha, rfl⟩ := parseDrive_eq_some driveParsed
      have same : (letter :: ':' :: rest).take 2 = (letter :: ':' :: tail).take 2 := rfl
      simp only [Prefix.len, List.take, List.cons_append, List.nil_append]
      rw [parsePrefix, if_neg (by rw [viewHas_congr same (by simp) (by simp)]; simp [notDouble])]
      simp [parseDrive, alpha]
  | unc server share =>
      have followed : Boundary rest = true := by simpa [Prefix.isDrive] using boundary
      obtain ⟨doubleSep, notVerb, notDevice, hserver, hshare, nonempty, nonempty'⟩ :=
        parsePrefix_eq_unc parsed
      have serverFree : ∀ c ∈ server, isSepByte c = false :=
        hserver ▸ parseNextComponent_sepFree' _
      have shareFree : ∀ c ∈ share, isSepByte c = false :=
        hshare ▸ parseNextComponent_sepFree' _
      obtain ⟨s, tail, isSep, -, lengths, split⟩ := parsePrefix_unc_split parsed
      have headLong : (path.take 2).length = 2 := by
        have : 2 ≤ path.length := by
          simpa using length_le_of_viewHas doubleSep (by simp) (by simp)
        rw [List.length_take, Nat.min_eq_left this]
      have prefixLong : 4 ≤ (path.take 2 ++ server ++ s :: share).length := by
        have := List.length_pos.mpr nonempty
        have := List.length_pos.mpr nonempty'
        simp only [List.length_append, List.length_cons, headLong]
        omega
      rw [split, List.take_left' lengths]
      have same : (path.take 2 ++ server ++ s :: share ++ rest).take 4 = path.take 4 := by
        conv_rhs => rw [split]
        rw [List.take_append_of_le_length prefixLong, List.take_append_of_le_length prefixLong]
      obtain ⟨double', verb', device'⟩ := parsePrefix_branch_congr same
      have dropped : (path.take 2 ++ server ++ s :: share ++ rest).drop 2 =
          server ++ s :: (share ++ rest) := by
        simp only [List.append_assoc, List.cons_append]
        rw [List.drop_left' headLong]
      rw [parsePrefix, if_pos (by rw [double']; exact doubleSep), if_neg (by rwa [verb']),
        if_neg (by rw [device']; simpa using notDevice), dropped]
      dsimp only
      rw [parseNextComponent_append_cons serverFree (by simpa using isSep),
        parseNextComponent_append_boundary shareFree followed]
      simp [nonempty, nonempty']
  | deviceNS name =>
      have followed : Boundary rest = true := by simpa [Prefix.isDrive] using boundary
      obtain ⟨doubleSep, notVerb, device, hname⟩ := parsePrefix_eq_deviceNS parsed
      obtain ⟨tail, -, lengths, split⟩ := parsePrefix_deviceNS_split parsed
      have long : 4 ≤ path.length := by
        simpa using length_le_of_viewHas device (by simp) (by simp)
      rw [split, List.take_left' lengths]
      have headLong : (path.take 4).length = 4 := by rw [List.length_take, Nat.min_eq_left long]
      have same : (path.take 4 ++ name ++ rest).take 4 = path.take 4 := by
        rw [List.append_assoc, List.take_left' headLong]
      obtain ⟨double', verb', device'⟩ := parsePrefix_branch_congr same
      have dropped : (path.take 4 ++ name ++ rest).drop 4 = name ++ rest := by
        rw [List.append_assoc, List.drop_left' headLong]
      rw [parsePrefix, if_pos (by rw [double']; exact doubleSep), if_neg (by rwa [verb']),
        if_pos (by rw [device']; exact device), dropped,
        parseNextComponent_append_boundary (by subst hname; exact parseNextComponent_sepFree' _)
          followed]

theorem parsePrefix_boundary {path : List Char} {p : Prefix} (parsed : parsePrefix path = some p)
    (notVerbatim : p.isVerbatim = false) (notDrive : p.isDrive = false) :
    Boundary (path.drop p.len) = true := by
  cases p with
  | verbatim | verbatimUNC | verbatimDisk => simp [Prefix.isVerbatim] at notVerbatim
  | disk => simp [Prefix.isDrive] at notDrive
  | unc server share =>
      obtain ⟨s, tail, -, boundary, lengths, split⟩ := parsePrefix_unc_split parsed
      rwa [split, List.drop_left' lengths]
  | deviceNS name =>
      obtain ⟨tail, boundary, lengths, split⟩ := parsePrefix_deviceNS_split parsed
      rwa [split, List.drop_left' lengths]

theorem parsePrefix_len_le {path : List Char} {p : Prefix} (parsed : parsePrefix path = some p)
    (notVerbatim : p.isVerbatim = false) : p.len ≤ path.length := by
  cases p with
  | verbatim | verbatimUNC | verbatimDisk => simp [Prefix.isVerbatim] at notVerbatim
  | disk =>
      obtain ⟨letter, tail, rfl, -, -⟩ := parseDrive_eq_some (parsePrefix_eq_disk parsed).2
      simp [Prefix.len]
  | unc server share =>
      obtain ⟨s, tail, -, -, lengths, split⟩ := parsePrefix_unc_split parsed
      have total := congrArg List.length split
      rw [List.length_append] at total
      omega
  | deviceNS name =>
      obtain ⟨tail, -, lengths, split⟩ := parsePrefix_deviceNS_split parsed
      have total := congrArg List.length split
      rw [List.length_append] at total
      omega

theorem boundary_take {text : List Char} (boundary : Boundary text = true) (n : Nat) :
    Boundary (text.take n) = true := by
  cases text <;> cases n <;> simp_all [Boundary]

/-- A prefix that is a whole path ending with a separator is a device namespace. -/
theorem parsePrefix_ends_sep {path : List Char} {p : Prefix} (parsed : parsePrefix path = some p)
    (notVerbatim : p.isVerbatim = false) (whole : path.length ≤ p.len) {c : Char}
    (last : path.getLast? = some c) (isSep : isSepByte c = true) :
    ∃ name, p = .deviceNS name := by
  cases p with
  | verbatim | verbatimUNC | verbatimDisk => simp [Prefix.isVerbatim] at notVerbatim
  | deviceNS name => exact ⟨name, rfl⟩
  | disk drive =>
      obtain ⟨letter, tail, rfl, -, -⟩ := parseDrive_eq_some (parsePrefix_eq_disk parsed).2
      cases tail with
      | nil =>
          simp only [List.getLast?_cons_cons, List.getLast?_singleton, Option.some.injEq] at last
          subst last
          simp [isSepByte] at isSep
      | cons x tail => simp [Prefix.len] at whole
  | unc server share =>
      obtain ⟨-, -, -, -, hshare, -, nonempty⟩ := parsePrefix_eq_unc parsed
      obtain ⟨s, tail, -, -, lengths, split⟩ := parsePrefix_unc_split parsed
      have noTail : tail = [] := by
        have total : path.length = (path.take 2 ++ server ++ s :: share).length + tail.length := by
          conv_lhs => rw [split]
          exact List.length_append _ _
        exact List.eq_nil_of_length_eq_zero (by omega)
      rw [noTail, List.append_nil] at split
      obtain ⟨x, shareLast⟩ := Option.isSome_iff_exists.mp (List.getLast?_isSome.mpr nonempty)
      rw [split, List.getLast?_append_of_ne_nil _ (List.cons_ne_nil _ _), List.getLast?_cons,
        shareLast] at last
      cases Option.some.inj last
      have free :=
        (hshare ▸ parseNextComponent_sepFree' _) x (List.mem_of_getLast?_eq_some shareLast)
      simp [free] at isSep

/-! ## Cutting a path behind its prefix -/

/-- Cutting a path never makes the parser see more than it saw before. -/
theorem viewHas_take_of_le {path : List Char} {index n : Nat} {pattern : List Char}
    (within : index + pattern.length ≤ n) :
    viewHas (path.take n) index pattern = viewHas path index pattern := by
  by_cases small : n ≤ 8
  · exact viewHas_take within small
  · have same : (path.take n).take 8 = path.take 8 := by
      rw [List.take_take, Nat.min_eq_left (by omega)]
    simp only [viewHas, prefixView, same]

theorem viewHas_of_take {path : List Char} {index n : Nat} {pattern : List Char}
    (has : viewHas (path.take n) index pattern = true) (nonempty : pattern ≠ [])
    (small : index + pattern.length ≤ 8) : viewHas path index pattern = true := by
  have long := length_le_of_viewHas has nonempty small
  rw [List.length_take] at long
  rwa [viewHas_take_of_le (by omega)] at has

/-- A component read from a cut text is the component of the whole text, once the cut is
behind it. -/
theorem parseNextComponent_take {verbatim : Bool} (text : List Char) {k : Nat}
    (long : (parseNextComponent verbatim text).1.length ≤ k) :
    parseNextComponent verbatim (text.take k) =
      ((parseNextComponent verbatim text).1,
        (parseNextComponent verbatim text).2.take
          (k - (parseNextComponent verbatim text).1.length - 1)) := by
  induction text generalizing k with
  | nil => simp [parseNextComponent]
  | cons x text inductionHypothesis =>
      by_cases isSep : separatorOf verbatim x = true
      · cases k <;> simp [parseNextComponent, isSep]
      · cases k with
        | zero => simp [parseNextComponent, isSep] at long
        | succ k =>
            simp only [parseNextComponent, isSep, if_false, Bool.false_eq_true,
              List.length_cons, Nat.add_le_add_iff_right] at long
            simp [parseNextComponent, isSep, inductionHypothesis long]

theorem parseDrive_cons_cons (a b : Char) (tail : List Char) :
    parseDrive (a :: b :: tail) =
      if b = ':' ∧ a.isAlpha = true then some a.toUpper else none := by
  by_cases colon : b = ':'
  · subst colon
    simp [parseDrive]
  · unfold parseDrive
    split
    · simp_all
    · simp [colon]

/-- A drive is read from the first two bytes alone. -/
theorem parseDrive_take (text : List Char) {k : Nat} (long : 2 ≤ k) :
    parseDrive (text.take k) = parseDrive text := by
  obtain ⟨k, rfl⟩ := Nat.exists_eq_add_of_le' long
  match text with
  | [] | [_] => simp
  | a :: b :: rest => simp [parseDrive_cons_cons]

/-- A drive read exactly stays read when the text is cut behind it. -/
theorem parseDriveExact_take {text : List Char} {drive : Char}
    (parsed : parseDriveExact text = some drive) {k : Nat} (long : 2 ≤ k) :
    parseDriveExact (text.take k) = some drive := by
  unfold parseDriveExact at parsed ⊢
  split_ifs at parsed with exact
  rw [parseDrive_take text long, parsed, if_pos]
  rw [List.getElem?_take]
  split_ifs <;> simp_all

/-- A name that is no exact drive stays no exact drive when the text is cut behind it. -/
theorem parseDriveExact_take_none {text : List Char} (parsed : parseDriveExact text = none)
    {k : Nat} (long : (parseNextComponent true text).1.length ≤ k) :
    parseDriveExact (text.take k) = none := by
  by_cases three : 3 ≤ k
  · unfold parseDriveExact at parsed ⊢
    rwa [List.getElem?_take_of_lt (by omega), parseDrive_take text (by omega)]
  have index : (text.take k)[2]? = none := by
    rw [List.getElem?_take, if_neg (by omega)]
  rw [parseDriveExact, index, Option.all_none, if_pos rfl]
  by_cases two : k = 2
  · subst two
    rw [parseDrive_take text le_rfl]
    cases found : parseDrive text with
    | none => rfl
    | some drive =>
        obtain ⟨letter, tail, rfl, alpha, -⟩ := parseDrive_eq_some found
        have letterFree : letter ≠ '\\' := by
          rintro rfl
          revert alpha
          decide
        cases tail with
        | nil => simp [parseDriveExact, found] at parsed
        | cons c rest =>
            have free : c ≠ '\\' := by
              rintro rfl
              simp [parseDriveExact, found, isVerbatimSep] at parsed
            simp [parseNextComponent, separatorOf, letterFree, free, isVerbatimSep] at long
  · have short : k < 2 := by omega
    match text, k, short with
    | _, 0, _ | [], 1, _ | [_], 1, _ | _ :: _ :: _, 1, _ => rfl

theorem parsePrefix_verbatim_branch {path : List Char} {p : Prefix}
    (parsed : parsePrefix path = some p) (verbatim : p.isVerbatim = true) :
    viewHas path 0 ['\\', '\\'] = true ∧ viewHas path 2 ['?', '\\'] = true ∧
      '/' ∉ path.take 4 := by
  unfold parsePrefix at parsed
  by_cases double : viewHas path 0 ['\\', '\\'] = true
  · by_cases verb : viewHas path 2 ['?', '\\'] = true ∧ '/' ∉ path.take 4
    · exact ⟨double, verb⟩
    · rw [if_pos double, if_neg verb] at parsed
      dsimp only at parsed
      split_ifs at parsed <;> cases Option.some.inj parsed <;> simp [Prefix.isVerbatim] at verbatim
  · rw [if_neg double] at parsed
    obtain ⟨drive, -, rfl⟩ := Option.map_eq_some'.mp parsed
    simp [Prefix.isVerbatim] at verbatim

/-- Cutting a verbatim path anywhere after its prefix keeps the prefix. -/
theorem parsePrefix_take_verbatim {path : List Char} {p : Prefix}
    (parsed : parsePrefix path = some p) (verbatim : p.isVerbatim = true) {n : Nat}
    (long : p.len ≤ n) : parsePrefix (path.take n) = some p := by
  have four : 4 ≤ n := by cases p <;> simp_all [Prefix.isVerbatim, Prefix.len] <;> omega
  obtain ⟨double', verb', -⟩ := @parsePrefix_branch_congr (path.take n) path
    (by rw [List.take_take, Nat.min_eq_left four])
  obtain ⟨double, verb⟩ := parsePrefix_verbatim_branch parsed verbatim
  rw [parsePrefix, if_pos double, if_pos verb] at parsed
  rw [parsePrefix, if_pos (double'.trans double), if_pos (verb'.mpr verb), List.drop_take]
  by_cases unc : viewHas path 4 ['U', 'N', 'C', '\\'] = true
  · rw [if_pos unc, Option.some.injEq] at parsed
    subst parsed
    simp only [Prefix.len] at long
    rw [if_pos (show viewHas (path.take n) 4 ['U', 'N', 'C', '\\'] = true by
        rwa [viewHas_take_of_le (by simp; omega)]),
      parseNextComponent_take _ (by omega)]
    dsimp only
    rw [parseNextComponent_take _ (by split at long <;> omega)]
  · rw [if_neg unc] at parsed
    rw [if_neg (show ¬viewHas (path.take n) 4 ['U', 'N', 'C', '\\'] = true from
      fun has => unc (viewHas_of_take has (by simp) (by simp))), List.drop_take]
    cases exact : parseDriveExact (path.drop 4) with
    | some drive =>
        rw [exact, Option.some.injEq] at parsed
        subst parsed
        rw [parseDriveExact_take exact (by simp [Prefix.len] at long; omega)]
    | none =>
        rw [exact, Option.some.injEq] at parsed
        subst parsed
        simp only [Prefix.len] at long
        rw [parseDriveExact_take_none exact (by omega), parseNextComponent_take _ (by omega)]

/-- Cutting a path anywhere after its prefix keeps the prefix. -/
theorem parsePrefix_take {path : List Char} {p : Prefix} (parsed : parsePrefix path = some p)
    {n : Nat} (long : p.len ≤ n) : parsePrefix (path.take n) = some p := by
  cases verbatim : p.isVerbatim
  · have split : path.take n = path.take p.len ++ (path.drop p.len).take (n - p.len) := by
      rw [← List.take_append_drop p.len (path.take n), List.take_take, Nat.min_eq_left long,
        List.drop_take]
    rw [split]
    refine parsePrefix_take_append parsed verbatim ?_
    cases drive : p.isDrive
    · exact .inr (boundary_take (parsePrefix_boundary parsed verbatim drive) _)
    · exact .inl rfl
  · exact parsePrefix_take_verbatim parsed verbatim long

end Windows

end Zuban.Path

